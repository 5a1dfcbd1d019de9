import PetgraphAlgo.Graph
import PetgraphAlgo.Visit
import PetgraphAlgo.PostOrder
import PetgraphAlgo.Reach
import PetgraphAlgo.Toposort
import PetgraphAlgo.Kosaraju
import PetgraphAlgo.Tarjan
import PetgraphAlgo.TarjanSpec
import PetgraphAlgo.TarjanReuse
import PetgraphAlgo.TarjanStack
import PetgraphAlgo.Network
import PetgraphAlgo.BellmanFord
import PetgraphAlgo.Astar
import PetgraphAlgo.AstarBellmanFord
import PetgraphAlgo.Cliques
import PetgraphAlgo.Condensation
import PetgraphAlgo.UnionFind
import PetgraphAlgo.MinSpanningTree
import PetgraphAlgo.MinSpanningTreeSpec
import PetgraphAlgo.HasPath
import PetgraphAlgo.ToposortCycle
import PetgraphAlgo.ToposortPhase1
import PetgraphAlgo.Components
import PetgraphAlgo.CyclicDirected
import PetgraphAlgo.Bipartite
import PetgraphAlgo.AstarPaths
import PetgraphAlgo.AstarRuns
import PetgraphAlgo.AstarOverflow
import PetgraphAlgo.AstarRounds
import PetgraphAlgo.CondensationReach
import PetgraphAlgo.BellmanFordRounds
import PetgraphAlgo.MinSpanningTreeIter
import PetgraphAlgo.TarjanCounter
import PetgraphAlgo.AstarChecked
import PetgraphAlgo.TarjanUsize
