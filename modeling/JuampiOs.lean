import JuampiOs.Audio.Qoa
import JuampiOs.Audio.Stream
import JuampiOs.Edit.LoadSave
import JuampiOs.Edit.Undo
import JuampiOs.Ext2.Geometry
import JuampiOs.Ext2.Leaks
import JuampiOs.Ext2.Persistence
import JuampiOs.Ext2.Surgery
import JuampiOs.Ext2.Unlink
import JuampiOs.Ext2.Walkers
import JuampiOs.Highlight
import JuampiOs.Hosted.Lifecycle
import JuampiOs.LineEdit.Recall
import JuampiOs.Memory.Frames
import JuampiOs.Memory.Walk
import JuampiOs.Net.Acks
import JuampiOs.Net.Checksum
import JuampiOs.Net.Dispatch
import JuampiOs.Net.Dotted
import JuampiOs.Net.EndOfStream
import JuampiOs.Net.Handshake
import JuampiOs.Net.Http
import JuampiOs.Net.Identity
import JuampiOs.Net.Messages
import JuampiOs.Net.Reack
import JuampiOs.Net.Send
import JuampiOs.Parallel.Delivery
import JuampiOs.Rtc
import JuampiOs.Ui.Modal
import JuampiOs.Ui.Nesting
import JuampiOs.Usb.Hid
import JuampiOs.Usb.Storage
