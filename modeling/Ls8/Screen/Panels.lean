import Ls8.Debugger
import Ls8.Screen

/-! What the debugger shows: disassembly, registers and status on the left, memory, output and
help on the right. -/
namespace Ls8.Screen

open Text (decimal)

def disassemblyLine (d : Debugger) (r : Debugger.WindowRow) (current : Bool) : Line :=
  let marked := d.breakpoints.any fun b => b.toNat == r.address
  let style : Style :=
    if current then .boldOf .yellow else if marked then .of .red else .plain
  let text := (if marked then '●' else ' ') :: ' ' ::
    (if current then "▶ ".toList else "  ".toList) ++ Text.address r.address ++ ": ".toList ++
    r.text
  ⟨styled style text, style⟩

def disassembly (d : Debugger) (height : Nat) : Panel :=
  ⟨" Disassembly ".toList, .of .cyan, .plain,
    (d.disassembly (height - 2)).map fun (r, current) => disassemblyLine d r current⟩

def valueStyle (b : UInt8) : Style := if b != 0 then .of .white else .of .darkGray

def registerCells (i : Nat) (b : UInt8) : Row :=
  styled (valueStyle b) ('R' :: decimal i ++ ": ".toList ++ Text.padLeft ' ' 3 (decimal b.toNat) ++
    " (".toList ++ Text.bits b ++ ")  ".toList)

def registers (d : Debugger) : Panel :=
  let cpu := d.machine.cpu
  let named := cpu.regs.general.toList.zipIdx.map fun (b, i) => registerCells i b
  let raw (s : String) : Row := styled .plain s.toList
  let status : Style := if cpu.isRunning then .of .green else .of .red
  ⟨" Registers ".toList, .of .green, .plain,
    [⟨(named.take 4).flatten, .plain⟩,
     ⟨(named.drop 4).flatten, .plain⟩,
     ⟨raw "PC: " ++ styled (.of .yellow) (Text.address cpu.regs.pc.toNat) ++ raw "   FL: " ++
        styled (.of .magenta) cpu.regs.flags.text, .plain⟩,
     ⟨raw "Cycles: " ++ styled (.of .cyan) (decimal cpu.cycles.toNat) ++ raw "   State: " ++
        styled status cpu.status.name, .plain⟩]⟩

def status (d : Debugger) : Panel :=
  ⟨" Status ".toList, .of .white, .of .white,
    [⟨styled (.of .white) d.notice.text, .of .white⟩]⟩

def rowBytes : Nat := 8

def memoryCell (pc a : Nat) (b : UInt8) : Row :=
  styled (if a = pc then .boldOf .yellow else valueStyle b) (Text.hex b ++ [' '])

-- A debugger makes its processor itself, so its memory has all the cells that are asked for here.
def memoryLine (d : Debugger) (row : Nat) : Line :=
  let base := row * rowBytes
  let cells := ((d.machine.cpu.mem.dump base rowBytes).getD []).flatMap fun (a, b) =>
    memoryCell d.pc.toNat a b
  ⟨styled .plain (Text.address base ++ ": ".toList) ++ cells, .plain⟩

def memory (d : Debugger) (height : Nat) : Panel :=
  let stop := min (d.scroll + (height - 2)) (Memory.space / rowBytes)
  ⟨" Memory ".toList, .of .magenta, .plain,
    (List.range' d.scroll (stop - d.scroll)).map (memoryLine d)⟩

def output (d : Debugger) (height : Nat) : Panel :=
  let lines := d.outputLines
  ⟨" Output ".toList, .plain, .plain, (lines.drop (lines.length - (height - 2))).map .plain⟩

def help : Panel :=
  let line (s : String) : Line := ⟨styled (.of .darkGray) s.toList, .of .darkGray⟩
  ⟨" Help ".toList, .of .darkGray, .of .darkGray,
    [line "s: Step  r: Run  p: Pause  b: Breakpoint",
     line "x: Reset  ↑↓: Scroll memory  q: Quit"]⟩

/-- The left side takes 55 percent of the width. Registers, status and help have a fixed height;
memory has at least ten rows, and output what is left up to eight. -/
def draw (d : Debugger) (width height : Nat) : List Row :=
  let left := width * 55 / 100
  let right := width - left
  let code := height - 10
  let cells := max 10 (height - 12)
  let printed := height - 4 - cells
  List.zipWith (· ++ ·)
    ((disassembly d code).draw left code ++ (registers d).draw left 7 ++ (status d).draw left 3)
    ((memory d cells).draw right cells ++ (output d printed).draw right printed ++
      help.draw right 4)

end Ls8.Screen
