import Qemacs.Lib.Splice
import Qemacs.Lib.Run
import Qemacs.Lib.Bytes
import Qemacs.Buffer.Page
import Qemacs.Buffer.Insert
import Qemacs.Buffer.Modify
import Qemacs.Charset.Basic
import Qemacs.Buffer.Edit
import Qemacs.Undo.Log
import Qemacs.Undo.Command
import Qemacs.Undo.Journal
import Qemacs.Undo.Layout
import Qemacs.Undo.Told
import Qemacs.Undo.Refine
import Qemacs.Undo.Simulate
import Qemacs.Undo.Chain
import Qemacs.Undo.Integrity
import Qemacs.Undo.Modified
import Qemacs.Undo.History
import Qemacs.Undo.Replay
import Qemacs.Undo.Complete
import Qemacs.Undo.Stale
import Qemacs.Lib.Lines
import Qemacs.Charset.Utf8
import Qemacs.Charset.Decode
import Qemacs.Charset.Pos
import Qemacs.Charset.Strict
import Qemacs.Charset.Encode
import Qemacs.Text.Iter
import Qemacs.Text.Utf8
import Qemacs.Text.RoundTrip
import Qemacs.Text.Stage
import Qemacs.Text.Flat
import Qemacs.Text.Pos
import Qemacs.Text.Convert
import Qemacs.Text.Region
import Qemacs.Text.Goto
import Qemacs.Text.Bol
import Qemacs.Charset.Pieces
import Qemacs.Text.Columns
import Qemacs.Charset.Chars
import Qemacs.Text.Chars
import Qemacs.Util.Ctype
import Qemacs.Util.Buf
import Qemacs.Util.Key
import Qemacs.Input.Compose
import Qemacs.Shell.Params
import Qemacs.Script.Value
import Qemacs.Script.Scan
import Qemacs.Script.Quote
import Qemacs.Callback.Watch
import Qemacs.Callback.Property
import Qemacs.Callback.Style
import Qemacs.Callback.Offset
import Qemacs.Undo.ReadOnly
import Qemacs.Editor.KillRing
import Qemacs.Editor.KillYank
import Qemacs.Editor.Macro
import Qemacs.Text.Line
import Qemacs.Undo.Charset
import Qemacs.Editor.Colorize
import Qemacs.Lib.Search
import Qemacs.Registry.Basic
import Qemacs.Registry.Cache
import Qemacs.Registry.Naming
import Qemacs.Registry.Invariant
import Qemacs.Registry.Free
import Qemacs.Registry.Consistent
import Qemacs.Script.Token
import Qemacs.Script.Eval
import Qemacs.Script.Expr
import Qemacs.Script.Stmt
import Qemacs.Script.CExpr
import Qemacs.Script.Precedence
import Qemacs.Script.Climb
import Qemacs.Lib.Fuel
import Qemacs.Lib.Logged
import Qemacs.Script.Fuel
import Qemacs.Script.Stack
import Qemacs.Script.Comma
import Qemacs.Script.Slots
import Qemacs.Script.Trace
import Qemacs.Script.Memory
import Qemacs.Script.Reads
import Qemacs.Script.Terminator
import Qemacs.Lib.Longest
import Qemacs.Input.Kmap
import Qemacs.Input.Entry
import Qemacs.Input.Section
import Qemacs.Input.Table
import Qemacs.Input.Compile
import Qemacs.Util.Bounded
import Qemacs.Util.Keys
import Qemacs.Script.Variable
import Qemacs.Lib.Tiling
import Qemacs.Lib.Sides
import Qemacs.Editor.Binding
import Qemacs.Editor.Window
import Qemacs.Editor.DeleteWindow
import Qemacs.Editor.Session
import Qemacs.Editor.Layout
import Qemacs.Editor.Quit
import Qemacs.Lib.Lookahead
import Qemacs.Markup.Entity
import Qemacs.Markup.Box
import Qemacs.Markup.Tag
import Qemacs.Markup.Xml
import Qemacs.Markup.Lookahead
import Qemacs.Markup.Chunk
import Qemacs.Charset.Detect
import Qemacs.Charset.Sound
import Qemacs.Text.Stepping
import Qemacs.Text.Reader
import Qemacs.Text.Glyph
import Qemacs.Lib.Compare
import Qemacs.Search.Engine
import Qemacs.Search.Scan
import Qemacs.Search.Exact
import Qemacs.Search.Overread
import Qemacs.Search.Word
import Qemacs.Lib.Turns
import Qemacs.Search.Command
import Qemacs.Search.Progress
import Qemacs.Search.Ends
import Qemacs.Search.Lines
import Qemacs.Search.Plain
import Qemacs.Search.Filter
import Qemacs.Search.Offsets
import Qemacs.Search.Region
import Qemacs.Editor.ControlH
import Qemacs.Editor.Replay
import Qemacs.Unicode.Ligature
import Qemacs.Unicode.Glyphs
import Qemacs.Lib.Replace
import Qemacs.Search.Replace
import Qemacs.Search.HexReplace
import Qemacs.Search.Isearch
import Qemacs.Lib.Fill
import Qemacs.Display.Line
import Qemacs.Display.Wrap
import Qemacs.Unicode.Levels
import Qemacs.Editor.NamedMacro
import Qemacs.Util.Collate
import Qemacs.Util.Match
import Qemacs.Util.Names
import Qemacs.Util.Canonical
import Qemacs.Script.Arith
import Qemacs.Util.Accents
import Qemacs.Script.Format
import Qemacs.Util.Qsort
import Qemacs.Editor.History
import Qemacs.Extras.Indent
import Qemacs.Display.Highlight
import Qemacs.Display.TabWidth
import Qemacs.Extras.TabRegion
import Qemacs.Extras.TabLayout
import Qemacs.Extras.Transpose
import Qemacs.Extras.Block
import Qemacs.Markup.StringBuffer
import Qemacs.Editor.Word
import Qemacs.Tty.Keyboard
import Qemacs.Shell.Screen
import Qemacs.Shell.Position
import Qemacs.Tty.CombCache
import Qemacs.Tty.CombClean
import Qemacs.Tty.DrawText
