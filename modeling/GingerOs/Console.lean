/-! The cursors of the console: `cons_putc` in text mode, where a cell is an index, and `ctx_putchar`
on a framebuffer, where it is a column and a row. -/

namespace GingerOs.Console

def BACKSPACE : Int := 0x100

def consMove (pos c : Int) : List Int × Int :=
  if c = 10 then ([], pos + (80 - pos.tmod 80))
  else if c = 8 then ([pos - 1], pos - 1)
  else if c = 9 then ([], (pos + 4) / 4 * 4)
  else if c = 13 then ([], pos.tdiv 80 * 80)
  else if 32 ≤ c then ([pos], pos + 1)
  else ([], pos)

/-- The lines move up by one, and the last one is cleared. -/
def consScroll (pos : Int) : List Int × Int :=
  ((List.range 1920).map (fun i : Nat => (i : Int)) ++ (List.range 80).map (fun i : Nat => pos - 80 + i), pos - 80)

/-- The cells that are written, and the cursor afterwards. -/
def consPutc (pos c : Int) : List Int × Int :=
  let shown := consMove pos (if c = BACKSPACE then 8 else c)
  if 25 ≤ shown.2.tdiv 80 then (shown.1 ++ (consScroll shown.2).1, (consScroll shown.2).2) else shown

/-- The `switch` of `ctx_putchar`. -/
def ctxMove (cols : Int) (p : Int × Int) (c : Int) : List (Int × Int) × Int × Int :=
  if c = 10 then ([], 0, p.2 + 1)
  else if c = 9 then ([], if cols ≤ (p.1 + 4) / 4 * 4 then (0, p.2 + 1) else ((p.1 + 4) / 4 * 4, p.2))
  else if c = 13 then ([], 0, p.2)
  else if c = 8 then
    let back := if p.1 - 1 < 0 then if 0 ≤ p.2 - 1 then (cols - 1, p.2 - 1) else (0, 0) else (p.1 - 1, p.2)
    ([back], back)
  else ([p], if cols ≤ p.1 + 1 then (0, p.2 + 1) else (p.1 + 1, p.2))

def lfbtermScroll (rows : Int) (p : Int × Int) : List (Int × Int) × Int × Int := ([p], 0, rows - 1)

def ctxPutchar (cols rows : Int) (p : Int × Int) (c : Int) : List (Int × Int) × Int × Int :=
  let shown := ctxMove cols p c
  if rows ≤ shown.2.2 then (p :: shown.1 ++ (lfbtermScroll rows shown.2).1, (lfbtermScroll rows shown.2).2)
  else (p :: shown.1, shown.2)

end GingerOs.Console
