import GraphAlgo.Ds.Heap
import GraphAlgo.Ds.PriorityQueue
import GraphAlgo.Ds.PriorityIndexQueue
import GraphAlgo.Ds.UnionFind
import GraphAlgo.Ds.EdgeWeightedGraph
import GraphAlgo.Ds.EdgeWeightedDiGraph
import GraphAlgo.Ds.Deque
import GraphAlgo.Ds.DiGraph
import GraphAlgo.Algo.Mst
import GraphAlgo.Algo.PathDijkstra
import GraphAlgo.Algo.DepthFirstScc
import GraphAlgo.Algo.BreadthFirstPaths
import GraphAlgo.Algo.RecursiveDfs
import GraphAlgo.Logic.PriorityQueue
import GraphAlgo.Logic.PriorityIndexQueue
import GraphAlgo.Logic.UnionFind
import GraphAlgo.Logic.Mst
import GraphAlgo.Logic.PathDijkstra
import GraphAlgo.Logic.TopoSort
import GraphAlgo.Logic.Scc
import GraphAlgo.Logic.Ucc
import GraphAlgo.Logic.BreadthFirstPaths
import GraphAlgo.Logic.DepthFirstPaths
import GraphAlgo.Logic.GraphCycle
import GraphAlgo.Logic.SpanningForest
import GraphAlgo.Logic.Kruskal
import GraphAlgo.Logic.PrimLazy
import GraphAlgo.Logic.PrimEager
