import VcmallocBench.Library.Word
import VcmallocBench.Library.Paging
import VcmallocBench.Library.Meets
import VcmallocBench.Library.Blocks
import VcmallocBench.Library.Runs
import VcmallocBench.Library.Leads
import VcmallocBench.Library.Keyed
import VcmallocBench.Machine.OS
import VcmallocBench.Machine.Memory
import VcmallocBench.HyperContainer.Search
import VcmallocBench.HyperContainer.Lookup
import VcmallocBench.HyperContainer.Growth
import VcmallocBench.HyperContainer.Bump
import VcmallocBench.HyperContainer.Preservation
import VcmallocBench.HyperContainer.Confluence
import VcmallocBench.HyperContainer.Extent
import VcmallocBench.HyperContainer.Effects
import VcmallocBench.HyperContainer.Bounds
import VcmallocBench.HyperContainer.Mappings
import VcmallocBench.HyperContainer.Failures
import VcmallocBench.HyperContainer.OneByOne
import VcmallocBench.HyperContainer.BatchElements
import VcmallocBench.HyperContainer.Accounts
import VcmallocBench.Manager.Process
import VcmallocBench.Manager.Continues
import VcmallocBench.Manager.Registry
import VcmallocBench.Manager.Heaps
import VcmallocBench.Manager.Ledger
import VcmallocBench.Manager.Creation
import VcmallocBench.Library.Chains
import VcmallocBench.Library.Trees
import VcmallocBench.DataStructures.LinkedObject
import VcmallocBench.DataStructures.LinkedList
import VcmallocBench.DataStructures.QueueAndStack
import VcmallocBench.DataStructures.Dispersed
import VcmallocBench.DataStructures.Relocation
import VcmallocBench.DataStructures.TreeRuns
import VcmallocBench.DataStructures.BinarySearchTree
import VcmallocBench.DataStructures.BinaryTree
import VcmallocBench.DataStructures.SortedLists
import VcmallocBench.DataStructures.DoublyLinkedList
import VcmallocBench.DataStructures.OrderedLinkedList
import VcmallocBench.DataStructures.UnorderedLinkedList
import VcmallocBench.Benchmarks.RowPointers
import VcmallocBench.Benchmarks.MatrixMultiplication
import VcmallocBench.Benchmarks.ReadAndPlot
