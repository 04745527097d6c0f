import Immwrt.Lib.Bytes
import Immwrt.Lib.BlockLog
import Immwrt.Nmbm.Ops
import Immwrt.Nmbm.Proof.Mapping
import Immwrt.Nmbm.Proof.Isolation
import Immwrt.Nmbm.Proof.Image
import Immwrt.Nmbm.Proof.Persist
import Immwrt.Nmbm.Proof.Attach
import Immwrt.Nmbm.Proof.Turns
import Immwrt.Nmbm.Proof.Upper
import Immwrt.Nmbm.Proof.UpperWrite
import Immwrt.Nmbm.Proof.UpperRead
import Immwrt.Nmbm.Proof.Accept
import Immwrt.Nmbm.Proof.Protect
import Immwrt.Mapcalc.Proof.PortSets
import Immwrt.Lib.Chain
import Immwrt.Nvram.Proof.Image
import Immwrt.Nvram.Proof.Keep
import Immwrt.Mtd.Proof.Fis
import Immwrt.Safeloader.Proof.Convert
import Immwrt.Snand.Proof.Page
import Immwrt.Mtd.Proof.Dump
import Immwrt.Sfe.Proof.Symmetry
import Immwrt.Sfe.Proof.Accounting
import Immwrt.Hnat.Proof.Mcast
import Immwrt.Hnat.Proof.ExtIf
import Immwrt.Hnat.Proof.PingPong
import Immwrt.Otrx.Proof.Image
import Immwrt.Oseama.Proof.Image
import Immwrt.Buffalo.Proof.Enc
import Immwrt.Softconfig.Proof.Commit
import Immwrt.Bcm4908img.Proof.Create
import Immwrt.Bcm4908img.Proof.Rename
import Immwrt.Ead.Crypt
import Immwrt.Ead.Daemon
import Immwrt.Ead.Proof.Gate
import Immwrt.Lib.Run
import Immwrt.Ead.Session
import Immwrt.Ead.Proof.Session
import Immwrt.Lib.Scanf
import Immwrt.Osafeloader.Image
import Immwrt.Osafeloader.Proof.Agree
import Immwrt.FastClassifier.Classifier
import Immwrt.FastClassifier.Proof.Lifecycle
import Immwrt.FastClassifier.Proof.Runs
import Immwrt.Nmbm.Proof.Find
import Immwrt.Lib.OnesComplement
import Immwrt.Lib.Filing
import Immwrt.Lib.BitCount
import Immwrt.Sfe.Options
import Immwrt.Sfe.Proof.Checksum
import Immwrt.Sfe.Proof.Options
import Immwrt.Sfe.Proof.Window
import Immwrt.Sfe.Proof.Shift
import Immwrt.Sfe6.Packet
import Immwrt.Sfe6.Engine
import Immwrt.Sfe6.Headers
import Immwrt.Sfe6.Proof.Headers
import Immwrt.Sfe6.Proof.Table
import Immwrt.Sfe6.Proof.Icmp
import Immwrt.Sfe6.Proof.Checksum
import Immwrt.Snand.Ecc
import Immwrt.Snand.AutoOob
import Immwrt.Snand.Soc
import Immwrt.Snand.Proof.Ecc
import Immwrt.Snand.Proof.Correction
import Immwrt.Snand.Proof.AutoOob
import Immwrt.Snand.Setup
import Immwrt.Snand.Proof.Setup
import Immwrt.Lib.Bits
import Immwrt.Lib.Traced
import Immwrt.Mapcalc.BitCopy
import Immwrt.Mapcalc.Proof.BitCopy
import Immwrt.Mapcalc.Match
import Immwrt.Mapcalc.Main
import Immwrt.Mapcalc.Proof.Match
import Immwrt.Mapcalc.Proof.Main
import Immwrt.Mapcalc.Proof.Bounds
import Immwrt.Lib.Partial
import Immwrt.Mtd.Jffs2
import Immwrt.Mtd.Proof.Jffs2
import Immwrt.Mtd.Jffs2Write
import Immwrt.Mtd.Proof.Jffs2Nodes
import Immwrt.Mtd.Proof.Jffs2Append
import Immwrt.Mtd.Proof.Jffs2Packing
import Immwrt.Mtd.Proof.Jffs2Device
import Immwrt.Mtd.Proof.Jffs2Replace
import Immwrt.Bcm4908img.Walk
import Immwrt.Bcm4908img.Proof.Walk
import Immwrt.Routerboot.Config
import Immwrt.Routerboot.Proof.Rle
import Immwrt.Routerboot.Proof.Tag
import Immwrt.Routerboot.Part
import Immwrt.Routerboot.Proof.Layout
import Immwrt.Routerboot.Proof.Search
import Immwrt.Hnat.FlowTable
import Immwrt.Hnat.Proof.FlowTable
import Immwrt.Hnat.McastRegs
import Immwrt.Hnat.Proof.McastRegs
import Immwrt.Mtd.Trx
import Immwrt.Mtd.Proof.Trx
import Immwrt.Safeloader.Split
import Immwrt.Safeloader.Proof.Split
import Immwrt.Ptgen.Table
import Immwrt.Ptgen.Proof.Place
import Immwrt.Ptgen.Proof.Table
import Immwrt.Ead.Channel
import Immwrt.Ead.Proof.Channel
import Immwrt.Ipcalc.Range
import Immwrt.Ipcalc.Proof.Range
import Immwrt.Lib.Loop
import Immwrt.Mtdsplit.Mtd
import Immwrt.Mtdsplit.Fit
import Immwrt.Mtdsplit.Proof.Rootfs
import Immwrt.Mtdsplit.Proof.Fit
import Immwrt.Mtdsplit.Image
import Immwrt.Mtdsplit.Proof.Image
import Immwrt.Mtdsplit.Wfi
import Immwrt.Mtdsplit.Proof.Jffs2
import Immwrt.Mtdsplit.Proof.Wfi
import Immwrt.Tffs.Nor
import Immwrt.Tffs.Proof.Nor
import Immwrt.Lib.Checked
import Immwrt.Tffs.Nand
import Immwrt.Tffs.Proof.Segments
import Immwrt.Tffs.Proof.Entry
import Immwrt.Tffs.Proof.Nand
import Immwrt.Mtwifi.Profile
import Immwrt.Mtwifi.Proof.Profile
import Immwrt.Ead.Proof.Reject
import Immwrt.GpioButton.Button
import Immwrt.GpioButton.Proof.Debounce
import Immwrt.Sixrd.Calc
import Immwrt.Sixrd.Proof.Calc
import Immwrt.FastClassifier.Tuple
import Immwrt.FastClassifier.Proof.Tuple
import Immwrt.Jboot.Config
import Immwrt.Jboot.Proof.Config
import Immwrt.Ead.Access
import Immwrt.Ead.Proof.Access
import Immwrt.Ead.Client
import Immwrt.Ead.Proof.Client
