import LinboxRescue.Lib.Scanf
import LinboxRescue.Lib.Tape
import LinboxRescue.Lib.Zlib
import LinboxRescue.Lib.StoredZlib
import LinboxRescue.Image.Format
import LinboxRescue.Image.CompressSpec
import LinboxRescue.Image.Retry
import LinboxRescue.Save.Prefixes
import LinboxRescue.Save.HdMap
import LinboxRescue.Save.Conf
import LinboxRescue.Boot.Partcopy
import LinboxRescue.Server.Barrier
import LinboxRescue.Server.Trailer
import LinboxRescue.Server.Ether
import LinboxRescue.Rpc.Pmrpc
import LinboxRescue.Boot.MenuMemory
import LinboxRescue.Boot.MenuSpec
import LinboxRescue.Admin.InStep
import LinboxRescue.Admin.DefaultEntry
import LinboxRescue.Admin.Registration
import LinboxRescue.Admin.Includes
import LinboxRescue.Lsc.Order
import LinboxRescue.Lsc.Exclusive
import LinboxRescue.Lsc.Stopped
import LinboxRescue.Lsc.Progress
import LinboxRescue.Lsc.Target
import LinboxRescue.Save.Numbers
import LinboxRescue.Image.Whole
import LinboxRescue.Save.TabsRestore
import LinboxRescue.Fs.Ext2
import LinboxRescue.Fs.LvmSpec
import LinboxRescue.Fs.Reiser
import LinboxRescue.Fs.XfsSpec
import LinboxRescue.Boot.Dhcp
import LinboxRescue.Boot.Smbios
import LinboxRescue.Boot.SmbiosSpec
import LinboxRescue.Boot.Tftp
import LinboxRescue.Boot.TftpSpec
import LinboxRescue.Fs.LvmEnds
import LinboxRescue.Boot.RunMenu
import LinboxRescue.Image.DecompressSpec
import LinboxRescue.Admin.IniSections
import LinboxRescue.Admin.MenuItem
import LinboxRescue.Lsc.Play
import LinboxRescue.Lib.Sql
import LinboxRescue.Lsc.Store
import LinboxRescue.Lsc.Attempts
import LinboxRescue.Save.Exclude
import LinboxRescue.Image.Drain
import LinboxRescue.Lib.Paths
import LinboxRescue.Lsc.CleanPath
import LinboxRescue.Lsc.Canonical
import LinboxRescue.Admin.HostTable
import LinboxRescue.Admin.Addresses
import LinboxRescue.Admin.DhcpConf
import LinboxRescue.Admin.SkelSync
import LinboxRescue.Lib.Copying
import LinboxRescue.Lib.Slots
import LinboxRescue.Image.ImageFiles
import LinboxRescue.Save.Backup
import LinboxRescue.Save.BackupRestore
import LinboxRescue.Server.Dictionary
import LinboxRescue.Server.Iniparser
import LinboxRescue.Server.LbsConf
import LinboxRescue.Boot.TrackBuffer
import LinboxRescue.Image.Again
import LinboxRescue.Fs.XfsImage
import LinboxRescue.Fs.ReiserImage
import LinboxRescue.Boot.Partitions
