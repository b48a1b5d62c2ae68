import Pelorus.Block.Accounting
import Pelorus.Block.Greedy
import Pelorus.Block.Index
import Pelorus.Block.Params
import Pelorus.Broker.Messages
import Pelorus.Broker.Refusals
import Pelorus.Broker.Sight
import Pelorus.Dom.Clone
import Pelorus.Dom.Reparent
import Pelorus.Dom.Snapshots
import Pelorus.Dom.Validate
import Pelorus.Gpu.Contained
import Pelorus.Image.Pixels
import Pelorus.Ipc.Stream
import Pelorus.Layout.Float
import Pelorus.Layout.Grid.AutoPlacement
import Pelorus.Layout.Grid.Flexible
import Pelorus.Layout.Grid.Sharing
import Pelorus.Layout.Inline.Cuts
import Pelorus.Layout.Inline.LineBox
import Pelorus.Layout.Inline.Lines
import Pelorus.Layout.Table.Columns
import Pelorus.Migrate.Chain
import Pelorus.Net.Framing
import Pelorus.Net.JarRun
import Pelorus.Net.Outgoing
import Pelorus.Net.Pool
import Pelorus.Net.PublicSuffix
import Pelorus.Script.Clock
import Pelorus.Script.TimerLaws
import Pelorus.Secure.Credentialless
import Pelorus.Secure.Location
import Pelorus.Secure.Sandbox
import Pelorus.Store.CookieHeader
import Pelorus.Store.LogSize
import Pelorus.Text.Cubic
import Pelorus.Update.ClientRun
import Pelorus.Update.Ed25519.Traps
import Pelorus.Update.Ed25519.Verify
import Pelorus.Update.Threshold
import Pelorus.Websec.Csp.Accumulate
import Pelorus.Websec.Csp.Serialize
import Pelorus.Websec.HashText
