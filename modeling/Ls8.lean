import Ls8.Main
import Ls8.Proofs.AddressMap
import Ls8.Proofs.Assembly.Alike
import Ls8.Proofs.Assembly.Decoded
import Ls8.Proofs.Assembly.Labels
import Ls8.Proofs.Assembly.Patches
import Ls8.Proofs.Assembly.Silent
import Ls8.Proofs.Cells
import Ls8.Proofs.Count
import Ls8.Proofs.Debugger.Breakpoints
import Ls8.Proofs.Debugger.Follow
import Ls8.Proofs.Debugger.Tiling
import Ls8.Proofs.Debugger.Window
import Ls8.Proofs.Disassembly.Fetched
import Ls8.Proofs.Disassembly.Reassembly
import Ls8.Proofs.Disassembly.Sweep
import Ls8.Proofs.ExitStatus
import Ls8.Proofs.Files.Encoded
import Ls8.Proofs.Life
import Ls8.Proofs.LockStep
import Ls8.Proofs.Output
import Ls8.Proofs.Program.Grammar
import Ls8.Proofs.Program.Kept
import Ls8.Proofs.Program.Loaded
import Ls8.Proofs.Program.Written
import Ls8.Proofs.Resume
import Ls8.Proofs.Screen
import Ls8.Proofs.Session
import Ls8.Proofs.StraightLine
import Ls8.Proofs.Text.Case
import Ls8.Proofs.Text.Radix
import Ls8.Screen.Panels
import Ls8.Session
