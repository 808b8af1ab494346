import SideWork.Lib.Loop
import SideWork.Lib.Heap
import SideWork.Lib.Walk
import SideWork.Lib.CArray
import SideWork.Lib.Bytes
import SideWork.Lib.BoundedMap
import SideWork.Lib.Shortlex
import SideWork.Lib.Tlv
import SideWork.LinkedList.Insert
import SideWork.LinkedList.Delete
import SideWork.LinkedList.Rearrange
import SideWork.LinkedList.HashTable
import SideWork.LinkedList.HashDuplicate
import SideWork.LinkedList.System
import SideWork.LinkedList.SearchLoop
import SideWork.Sort.Partition
import SideWork.Sort.QuickSort
import SideWork.Xdp.DropIcmp
import SideWork.Netlink.RtAttr
import SideWork.Netlink.RtEntry
import SideWork.Netlink.RtnetlinkTest
import SideWork.Nl80211.TriggerScan
import SideWork.Nl80211.PrintSsid
import SideWork.Nl80211.ScanResult
import SideWork.KernelModule.DropUdp
import SideWork.LinkedList.SearchMiddle
import SideWork.LinkedList.Numbers
import SideWork.Sort.MergeSort
import SideWork.Netlink.Receive
import SideWork.Xdp.ProgLoader
import SideWork.Netlink.Kernel
import SideWork.Multicast.Frame
import SideWork.Sort.InsertionSort
import SideWork.Sort.SelectionSort
import SideWork.Sort.BubbleSort
import SideWork.LinkedList.Runs
import SideWork.LinkedList.Session
import SideWork.LinkedList.Search
import SideWork.LinkedList.BuildLoop
import SideWork.LinkedList.SumOfLast
import SideWork.LinkedList.Compare
import SideWork.Netlink.AttrTables
import SideWork.Netlink.AddrOrder
import SideWork.Math.Gcd
import SideWork.Sort.MergeCalls
import SideWork.KernelModule.DropCount
import SideWork.Netlink.AttrCodec
import SideWork.Nl80211.StaInfo
import SideWork.Lib.Refine
import SideWork.LinkedList.Refinement
import SideWork.Lib.System
import SideWork.Lib.Cursor
import SideWork.Xdp.Monitor
import SideWork.Netlink.Clients
import SideWork.Lib.Callbacks
import SideWork.Nl80211.MulticastId
import SideWork.Nl80211.ScanProgram
import SideWork.Nl80211.GetStation
import SideWork.Tcp.ServerClient
import SideWork.Xdp.Pinning
import SideWork.Netlink.DumpRun
import SideWork.Lib.Additions
import SideWork.Lib.Places
import SideWork.Netlink.Handlers
import SideWork.KernelModule.Hooks
import SideWork.KernelModule.PortWriters
import SideWork.Process.RouteWords
