import MacKernel.Core.Run
import MacKernel.Core.Cyclic
import MacKernel.Models.ChannelRing.Native
import MacKernel.Models.ChannelRing.System
import MacKernel.Models.ChannelRing.Invariant
import MacKernel.Models.ChannelRing.Preservation
import MacKernel.Models.ChannelRing.Safety
import MacKernel.Models.ChannelRing.Progress
import MacKernel.Core.Memory
import MacKernel.Models.Kcdata.Native
import MacKernel.Models.Kcdata.Walk
import MacKernel.Models.Kcdata.Codec
import MacKernel.Core.Tree
import MacKernel.Core.Balance
import MacKernel.Core.Comparison
import MacKernel.Models.PriorityQueue.Layout
import MacKernel.Core.HeapOrder
import MacKernel.Models.PriorityQueue.Native
import MacKernel.Models.PriorityQueue.Links
import MacKernel.Models.PriorityQueue.Surgery
import MacKernel.Models.PriorityQueue.Operations
import MacKernel.Models.PriorityQueue.System
import MacKernel.Models.PriorityQueue.Meld
import MacKernel.Models.PriorityQueue.Contract
import MacKernel.Models.PriorityQueue.Keys
import MacKernel.Models.RedBlack.Native
import MacKernel.Models.RedBlack.Layout
import MacKernel.Models.RedBlack.Surgery
import MacKernel.Models.RedBlack.Focus
import MacKernel.Models.RedBlack.InsertColor
import MacKernel.Models.RedBlack.RemoveColor
import MacKernel.Models.RedBlack.Remove
import MacKernel.Models.RedBlack.Search
import MacKernel.Models.RedBlack.Insert
import MacKernel.Models.RedBlack.System
import MacKernel.Core.Augmented
import MacKernel.Models.RedBlack.Augment
import MacKernel.Models.RedBlack.InsertFields
import MacKernel.Models.RedBlack.RemoveFields
import MacKernel.Models.RedBlack.FieldSystem
import MacKernel.Models.RedBlack.Navigate
import MacKernel.Models.RedBlack.Iterate
import MacKernel.Core.Fields
import MacKernel.Models.Buflet.Native
import MacKernel.Models.Packet.Native
import MacKernel.Models.Packet.Boundary
import MacKernel.Models.Packet.Allocation
import MacKernel.Core.Tally
import MacKernel.Models.SlotDesc.Native
import MacKernel.Models.SlotDesc.Attachment
import MacKernel.Models.Buflet.System
import MacKernel.Models.Buflet.UseCount
import MacKernel.Core.Chain
import MacKernel.Models.PacketQueue.Native
import MacKernel.Models.PacketQueue.Representation
import MacKernel.Models.PacketQueue.Operations
import MacKernel.Models.PacketQueue.Refinement
import MacKernel.Models.Osmemory.Native
import MacKernel.Models.Osmemory.Cascade
import MacKernel.Models.Osmemory.Assignment
import MacKernel.Models.Osmemory.Handles
import MacKernel.Models.Osmemory.Control
import MacKernel.Models.Osmemory.Counting
import MacKernel.Core.Account
import MacKernel.Models.SmartPtr.Native
import MacKernel.Models.SmartPtr.Accounting
import MacKernel.Models.StateReport.Native
import MacKernel.Models.StateReport.Effects
import MacKernel.Models.StateReport.Residency
import MacKernel.Models.StateReport.LastTransition
import MacKernel.Core.Simulation
import MacKernel.Core.Scan
import MacKernel.Models.Bitmap.Native
import MacKernel.Models.Bitmap.Words
import MacKernel.Models.Bitmap.Members
import MacKernel.Models.Bitmap.Sets
import MacKernel.Models.Bitmap.Enumeration
import MacKernel.Models.Bitmap.Bounds
import MacKernel.Core.Ring
import MacKernel.Core.RingFamily
import MacKernel.Models.Queue.Native
import MacKernel.Models.Queue.Family
import MacKernel.Models.Queue.LinkageChains
import MacKernel.Models.Queue.LinkageRefinement
import MacKernel.Models.Queue.ElementChains
import MacKernel.Models.Queue.ElementRefinement
import MacKernel.Models.Queue.StoreOrder
import MacKernel.Models.CircleQueue.Native
import MacKernel.Models.CircleQueue.Refinement
import MacKernel.Core.Foreach
import MacKernel.Models.TailQueue.Native
import MacKernel.Models.TailQueue.Views
import MacKernel.Models.TailQueue.Families
import MacKernel.Models.TailQueue.Moves
import MacKernel.Models.TailQueue.Refinement
import MacKernel.Core.OrderedSet
import MacKernel.Models.SplayTree.Native
import MacKernel.Models.SplayTree.Layout
import MacKernel.Models.SplayTree.Parts
import MacKernel.Models.SplayTree.Splay
import MacKernel.Models.SplayTree.Operations
import MacKernel.Models.SplayTree.Refinement
import MacKernel.Core.Bytes
import MacKernel.Models.Kcdata.Arrays
import MacKernel.Models.Packet.Checksum
import MacKernel.Models.Packet.Options
import MacKernel.Models.Packet.Tokens
import MacKernel.Models.Packet.VlanTag
import MacKernel.Models.Packet.OptionRegisters
import MacKernel.Models.Packet.Buflets
import MacKernel.Models.Packet.BufletChain
import MacKernel.Models.Packet.Finalize
import MacKernel.Models.Packet.FinalizeOutcome
import MacKernel.Models.Kcdata.Payload
import MacKernel.Models.Kcdata.Subtypes
import MacKernel.Models.PriorityQueue.RootReports
import MacKernel.Core.LongDivision
import MacKernel.Models.Arith64.Native
import MacKernel.Models.Arith64.Division
import MacKernel.Models.FlowSwitch.Native
import MacKernel.Models.FlowSwitch.MemcmpMask
import MacKernel.Models.FlowSwitch.Compare
import MacKernel.Models.FlowSwitch.Requests
import MacKernel.Core.Extremes
import MacKernel.Models.Histogram.Native
import MacKernel.Models.Histogram.Routing
import MacKernel.Models.Histogram.Accounting
import MacKernel.Core.TwoWords
import MacKernel.Models.Arith128.Native
import MacKernel.Models.Arith128.Product
import MacKernel.Models.BigNum128.Native
import MacKernel.Models.BigNum128.Arithmetic
import MacKernel.Models.BigNum128.Ordering
import MacKernel.Core.IntegerType
import MacKernel.Models.Overflow.Native
import MacKernel.Models.Overflow.Compound
import MacKernel.Models.Bitmap.TestModify
import MacKernel.Models.SimpleArray.Native
import MacKernel.Models.SimpleArray.Bounds
import MacKernel.Core.Copy
import MacKernel.Models.UnrolledCopy.Native
import MacKernel.Models.UnrolledCopy.Memcpy
import MacKernel.Core.SetBits
import MacKernel.Models.Packet.TxCompletion
import MacKernel.Models.Queue.Rebase
import MacKernel.Core.ChainFamily
import MacKernel.Models.SinglyTailQueue.Native
import MacKernel.Models.SinglyTailQueue.Families
import MacKernel.Models.SinglyTailQueue.Refinement
import MacKernel.Models.SinglyLinkedList.Native
import MacKernel.Models.SinglyLinkedList.Refinement
import MacKernel.Models.LinkedList.Native
import MacKernel.Models.LinkedList.Refinement
import MacKernel.Models.CircularQueue.Native
import MacKernel.Models.CircularQueue.Refinement
import MacKernel.Models.Packet.BufletBounds
import MacKernel.Models.Packet.MbufPacket
import MacKernel.Models.ChannelRing.Space
import MacKernel.Models.Nexus.Native
import MacKernel.Models.Nexus.RoundTrip
import MacKernel.Models.Packet.Header
import MacKernel.Models.Packet.HeaderRegisters
import MacKernel.Core.Limbs
import MacKernel.Models.Ccn.Native
import MacKernel.Models.Ccn.Numbers
import MacKernel.Models.Ccn.Refinement
import MacKernel.Models.Ccn.Swap
import MacKernel.Models.LockGuard.Native
import MacKernel.Models.LockGuard.Platform
import MacKernel.Models.LockGuard.Exclusion
import MacKernel.Models.LockGuard.Interrupts
import MacKernel.Core.AtomicObject
import MacKernel.Models.Atomic.Native
import MacKernel.Models.Atomic.Linearization
import MacKernel.Models.Atomic.Progress
import MacKernel.Models.Atomic.UseCount
import MacKernel.Models.ControlMessage.Native
import MacKernel.Models.ControlMessage.RoundTrip
import MacKernel.Models.ControlMessage.Termination
