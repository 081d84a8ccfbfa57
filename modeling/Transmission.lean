import Transmission.Torrent
import Transmission.Inout.Locate
import Transmission.Inout.Piece
import Transmission.Inout.Concat
import Transmission.Inout.Verify
import Transmission.Inout.Check
import Transmission.Variant
import Transmission.Magnet.Metadata
import Transmission.Magnet.Run
import Transmission.Magnet.Invariant
import Transmission.Magnet.Queue
import Transmission.Magnet.Install
import Transmission.Magnet.Serve
import Transmission.Magnet.Exchange
import Transmission.Magnet.InfoDict
import Transmission.Magnet.Link
import Transmission.Json.Utf
import Transmission.Json.Text
import Transmission.Json.Literal
import Transmission.Json.Grammar
import Transmission.Json.Writer
import Transmission.Json.Reader
import Transmission.Json.RoundTrip
import Transmission.Gtk.MsgWin
