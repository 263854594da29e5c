import Zfs.Spl.Byteorder
import Zfs.Spl.Sysmacros
import Zfs.Lib.Slots
import Zfs.Lib.BinarySearch
import Zfs.Lib.Compar
import Zfs.Lib.Except
import Zfs.Lib.Intervals
import Zfs.Lib.Utf8
import Zfs.Lib.Buffer
import Zfs.Lib.HashChains
import Zfs.Spa.Blkptr
import Zfs.Btree.Defs
import Zfs.Btree.Shape
import Zfs.Btree.Find
import Zfs.RangeTree.Defs
import Zfs.Metaslab.DfAlloc
import Zfs.Fletcher.Scalar
import Zfs.Fletcher.Lanes
import Zfs.Simd.Register
import Zfs.Fletcher.Vector
import Zfs.Fletcher.Native
import Zfs.Spa.Embedded
import Zfs.Zcommon.Namecheck
import Zfs.Unicode.U8Validate
import Zfs.Zil.ReadLog
import Zfs.Recv.ReadRecord
import Zfs.Sa.Index
import Zfs.Zap.Cursor
import Zfs.Zap.Cd
import Zfs.Zap.LeafArray
import Zfs.Zap.Micro
import Zfs.Zap.MicroMap
import Zfs.Zap.Ptrtbl
import Zfs.Nvpair.Table
import Zfs.Nvpair.Native
import Zfs.Nvpair.Add
import Zfs.Nvpair.Lookup
import Zfs.Nvpair.Index
import Zfs.Rlock.Tree
import Zfs.Rlock.Spec
import Zfs.Rlock.Reader
import Zfs.Rlock.AddReader
import Zfs.Rlock.Enter
import Zfs.Rlock.Exit
import Zfs.Rlock.Invariant
import Zfs.Rlock.Safety
import Zfs.Compress.Zle
import Zfs.Compress.Lzjb
import Zfs.Compress.LzjbFrame
import Zfs.SpaceMap.Defs
import Zfs.SpaceMap.Layout
import Zfs.SpaceMap.Iterate
import Zfs.SpaceMap.Write
import Zfs.Vdev.IndirectMapping
import Zfs.Abd.Iter
import Zfs.Abd.Raidz
import Zfs.Abd.Ops
