import CubikOS.Lib.Loop
import CubikOS.Proc.Name

/-!
# The text console

`line_move_up`, `new_line`, `add_char`, `WriteLine` and `WriteLong` of
`Kernel/src/graphic/terminal.c`.

The screen has 25 rows of 80 cells.  Characters are written one after the other, and a new row is
begun behind the last column of a row and at the end of each call; when there are no more rows,
everything moves up by one and the last row is cleared.

What is meant to be seen is the end of a `Log`, with rows without end.  It has the first contents of
the screen as its background.

* `lineMoveUp_spec` says what moving up does to the buffer.
* `Window` relates the screen to the log, and `Window.output` says that one character or the end of
  one call keeps it.
* `writeLine_eq` and `writeLong_eq` say that the two functions write their characters one after the
  other, and then end the line.
* `terminal_shows_log` is about any number of calls.
-/

set_option autoImplicit false

namespace CubikOS

open Loop

/-! ## The functions -/

/-- What can go wrong: there is no such cell, or an `int` is too large. -/
inductive TerminalFault where
  | outOfBounds (index : ℕ)
  | overflow
deriving DecidableEq

/-- `row`, `column` and what is in `t_buffer`. -/
structure Terminal where
  /-- The row. -/
  row : ℕ
  /-- The column. -/
  column : ℕ
  /-- The cells. -/
  buffer : ℕ → BitVec 16

/-- `15 | 0 << 4`. -/
def color : BitVec 16 := 15#16 ||| 0#16 <<< 4

/-- `' ' | color << 8`. -/
def blankCell : BitVec 16 := 0x20#16 ||| color <<< 8

/-- `(uint16_t)c | (uint16_t)color << 8`, where `c` is a `char`. -/
def charCell (c : BitVec 8) : BitVec 16 := c.signExtend 16 ||| color <<< 8

namespace Terminal

/-- `t_buffer[index]`. -/
def read (t : Terminal) (index : ℕ) : Except TerminalFault (BitVec 16) :=
  if index < 2000 then .ok (t.buffer index) else .error (.outOfBounds index)

/-- `t_buffer[index] = cell`. -/
def write (t : Terminal) (index : ℕ) (cell : BitVec 16) : Except TerminalFault Terminal :=
  if index < 2000 then .ok { t with buffer := Function.update t.buffer index cell }
  else .error (.outOfBounds index)

/-- One round of the first loop of `line_move_up`. -/
def moveCell (i : ℕ) (t : Terminal) : Except TerminalFault Terminal :=
  match t.read (i + 80) with
  | .error e => .error e
  | .ok cell => t.write i cell

/-- `line_move_up()`. -/
def lineMoveUp (t : Terminal) : Except TerminalFault Terminal :=
  match forRange 1920 moveCell t with
  | .error e => .error e
  | .ok t => forRange 80 (fun i t ↦ t.write (1920 + i) blankCell) t

/-- `new_line()`. -/
def newLine (t : Terminal) : Except TerminalFault Terminal :=
  let t := { t with row := (t.row + 1) % 2 ^ 64, column := 0 }
  if t.row = 25 then lineMoveUp { t with row := t.row - 1 } else .ok t

/-- `add_char(c)`. -/
def addChar (c : BitVec 8) (t : Terminal) : Except TerminalFault Terminal :=
  match t.write ((t.row * 80 + t.column) % 2 ^ 64) (charCell c) with
  | .error e => .error e
  | .ok t =>
    let t := { t with column := (t.column + 1) % 2 ^ 64 }
    if t.column = 80 then t.newLine else .ok t

/-- One round of `WriteLine`, with the `i++` at its end. -/
def writeLineRound (text : List (BitVec 8)) (i : ℕ) (t : Terminal) :
    Except TerminalFault Terminal :=
  match t.addChar (text.getD i 0#8) with
  | .error e => .error e
  | .ok t => if i + 1 < 2 ^ 31 then .ok t else .error .overflow

/-- `WriteLine(text)`. -/
def writeLine (text : List (BitVec 8)) (t : Terminal) : Except TerminalFault Terminal :=
  match forRange (strlen text) (writeLineRound text) t with
  | .error e => .error e
  | .ok t => t.newLine

/-- One round of `WriteLong`. -/
def writeLongRound (_ : ℕ) (s : Terminal × ℕ) : Except TerminalFault (Terminal × ℕ) :=
  match s.1.addChar (BitVec.ofNat 8 (48 + s.2 % 10)) with
  | .error e => .error e
  | .ok t => .ok (t, s.2 / 10)

/-- `WriteLong(val)`. -/
def writeLong (val : BitVec 64) (t : Terminal) : Except TerminalFault Terminal :=
  match forRange 79 writeLongRound (t, val.toNat) with
  | .error e => .error e
  | .ok s => s.1.newLine

end Terminal

/-- A call of `WriteLine` or `WriteLong`. -/
inductive TerminalCall where
  | writeLine (text : List (BitVec 8))
  | writeLong (val : BitVec 64)
deriving DecidableEq

/-- What a call does. -/
def TerminalCall.exec : TerminalCall → Terminal → Except TerminalFault Terminal
  | writeLine text => Terminal.writeLine text
  | writeLong val => Terminal.writeLong val

/-- A number of calls. -/
def Terminal.calls : List TerminalCall → Terminal → Except TerminalFault Terminal
  | [], t => .ok t
  | call :: calls, t =>
    match call.exec t with
    | .error e => .error e
    | .ok t => t.calls calls

/-! ## What is expected -/

/-- What comes out of the calls: characters, and the ends of the calls. -/
inductive Output where
  | char (c : BitVec 8)
  | lineEnd
deriving DecidableEq

/-- What comes out of a call: the characters up to the first 0, or 79 digits, the lowest first. -/
def TerminalCall.outputs : TerminalCall → List Output
  | writeLine text => (text.takeWhile (· ≠ 0#8)).map Output.char ++ [.lineEnd]
  | writeLong val =>
    (List.range 79).map (fun i ↦ Output.char (BitVec.ofNat 8 (48 + val.toNat / 10 ^ i % 10))) ++
      [.lineEnd]

/-- What the output does to the screen. -/
def Terminal.output : Output → Terminal → Except TerminalFault Terminal
  | .char c => addChar c
  | .lineEnd => newLine

/-- A number of outputs. -/
def Terminal.outputs : List Output → Terminal → Except TerminalFault Terminal
  | [], t => .ok t
  | out :: outs, t =>
    match t.output out with
    | .error e => .error e
    | .ok t => t.outputs outs

/-- Rows without end. -/
structure Log where
  /-- The row that is written now, with one row less than have been started. -/
  current : ℕ
  /-- The column that is written next. -/
  column : ℕ
  /-- The characters. -/
  cell : ℕ → ℕ → BitVec 8

/-- The background. -/
def Log.start (buffer : ℕ → BitVec 16) : Log where
  current := 0
  column := 0
  cell r c := if r < 25 then (buffer (r * 80 + c)).setWidth 8 else 0x20#8

/-- A new row. -/
def Log.newRow (log : Log) : Log := ⟨log.current + 1, 0, log.cell⟩

/-- One more output. -/
def Log.output (log : Log) : Output → Log
  | .char c =>
    let log : Log := ⟨log.current, log.column + 1,
      Function.update log.cell log.current (Function.update (log.cell log.current) log.column c)⟩
    if log.column = 80 then log.newRow else log
  | .lineEnd => log.newRow

/-- The screen shows the last rows of the log. -/
structure Window (log : Log) (t : Terminal) : Prop where
  /-- The row is on the screen. -/
  row_lt : t.row < 25
  /-- The column is on the screen. -/
  column_lt : t.column < 80
  /-- The row is the one that is written now. -/
  row_eq : t.row = min log.current 24
  /-- The column is the one that is written next. -/
  column_eq : t.column = log.column
  /-- The characters are the same. -/
  cells : ∀ r c, r < 25 → c < 80 →
    (t.buffer (r * 80 + c)).setWidth 8 = log.cell (log.current - 24 + r) c

/-! ## Moving up -/

/-- The first loop of `line_move_up`. -/
theorem moveCells_spec (t : Terminal) {n : ℕ} (hn : n ≤ 1920) :
    ∃ buffer, forRange n Terminal.moveCell t = .ok { t with buffer := buffer } ∧
      ∀ j, buffer j = if j < n then t.buffer (j + 80) else t.buffer j := by
  induction n with
  | zero => exact ⟨t.buffer, rfl, fun j ↦ rfl⟩
  | succ n ih =>
    obtain ⟨buffer, hrun, hbuffer⟩ := ih (by omega)
    -- what is read has not been written yet
    have hread : ({ t with buffer := buffer } : Terminal).read (n + 80) =
        .ok (t.buffer (n + 80)) := by
      rw [Terminal.read, if_pos (by omega)]
      dsimp only
      rw [hbuffer, if_neg (by omega)]
    rw [forRange_succ_ok hrun, Terminal.moveCell, hread]
    dsimp only
    rw [Terminal.write, if_pos (by omega)]
    refine ⟨_, rfl, fun j ↦ ?_⟩
    dsimp only
    rcases eq_or_ne j n with rfl | hj
    · rw [Function.update_self, if_pos (Nat.lt_succ_self j)]
    · rw [Function.update_of_ne hj, hbuffer]
      split_ifs <;> first | rfl | omega

/-- The second one. -/
theorem clearCells_spec (t : Terminal) {n : ℕ} (hn : n ≤ 80) :
    ∃ buffer, forRange n (fun i t ↦ Terminal.write t (1920 + i) blankCell) t =
        .ok { t with buffer := buffer } ∧
      ∀ j, buffer j = if 1920 ≤ j ∧ j < 1920 + n then blankCell else t.buffer j := by
  induction n with
  | zero => exact ⟨t.buffer, rfl, fun j ↦ by rw [if_neg (by omega)]⟩
  | succ n ih =>
    obtain ⟨buffer, hrun, hbuffer⟩ := ih (by omega)
    rw [forRange_succ_ok hrun, Terminal.write, if_pos (by omega)]
    refine ⟨_, rfl, fun j ↦ ?_⟩
    dsimp only
    rcases eq_or_ne j (1920 + n) with rfl | hj
    · rw [Function.update_self, if_pos (by omega)]
    · rw [Function.update_of_ne hj, hbuffer]
      split_ifs <;> first | rfl | omega

/-- **What moving up does.** -/
theorem lineMoveUp_spec (t : Terminal) : ∃ buffer, t.lineMoveUp = .ok { t with buffer := buffer } ∧
    ∀ i, i < 2000 → buffer i = if i < 1920 then t.buffer (i + 80) else blankCell := by
  obtain ⟨moved, hmove, hmoved⟩ := moveCells_spec t le_rfl
  obtain ⟨cleared, hclear, hcleared⟩ := clearCells_spec { t with buffer := moved } le_rfl
  refine ⟨cleared, ?_, fun i hi ↦ ?_⟩
  · unfold Terminal.lineMoveUp
    rw [hmove]
    dsimp only
    rw [hclear]
  · rw [hcleared]
    dsimp only
    rw [hmoved]
    split_ifs <;> first | rfl | omega

/-! ## One output -/

theorem setWidth_charCell (c : BitVec 8) : (charCell c).setWidth 8 = c := by
  decide +revert

/-- Rows that have not been started are blank. -/
def Log.BlankBelow (log : Log) : Prop :=
  ∀ r c, log.current < r → 25 ≤ r → log.cell r c = 0x20#8

/-- **A new row** is the next one, or the last one after everything has moved up. -/
theorem newLine_window {log : Log} {t : Terminal} (hblank : log.BlankBelow)
    (hrow : t.row = min log.current 24)
    (hcells : ∀ r c, r < 25 → c < 80 →
      (t.buffer (r * 80 + c)).setWidth 8 = log.cell (log.current - 24 + r) c) :
    ∃ t', t.newLine = .ok t' ∧ Window log.newRow t' := by
  have hmod : (t.row + 1) % 2 ^ 64 = t.row + 1 := Nat.mod_eq_of_lt (by omega)
  rw [Terminal.newLine]
  dsimp only
  rw [hmod]
  by_cases hlast : t.row + 1 = 25
  · obtain ⟨buffer, hrun, hbuffer⟩ := lineMoveUp_spec ⟨t.row + 1 - 1, 0, t.buffer⟩
    rw [if_pos hlast, hrun]
    refine ⟨_, rfl, ?_, Nat.succ_pos 79, ?_, rfl, fun r c hr hc ↦ ?_⟩
    · dsimp only
      omega
    · dsimp only [Log.newRow]
      omega
    · dsimp only [Log.newRow]
      rw [hbuffer _ (by omega)]
      rcases Nat.lt_or_ge r 24 with hr' | hr'
      · have hindex : r * 80 + c + 80 = (r + 1) * 80 + c := by omega
        have hlog : log.current + 1 - 24 + r = log.current - 24 + (r + 1) := by omega
        rw [if_pos (by omega), hindex, hcells (r + 1) c (by omega) hc, hlog]
      · rw [if_neg (by omega), hblank _ c (by omega) (by omega)]
        decide
  · rw [if_neg hlast]
    refine ⟨_, rfl, ?_, Nat.succ_pos 79, ?_, rfl, fun r c hr hc ↦ ?_⟩
    · dsimp only
      omega
    · dsimp only [Log.newRow]
      omega
    · dsimp only [Log.newRow]
      have hlog : log.current + 1 - 24 + r = log.current - 24 + r := by omega
      rw [hcells r c hr hc, hlog]

/-- **A character** is put where the log has it. -/
theorem addChar_window {log : Log} {t : Terminal} (hblank : log.BlankBelow) (hw : Window log t)
    (c : BitVec 8) : ∃ t', t.addChar c = .ok t' ∧ Window (log.output (.char c)) t' := by
  obtain ⟨hrow, hcolumn, hrow_eq, hcolumn_eq, hcells⟩ := hw
  have hindex : (t.row * 80 + t.column) % 2 ^ 64 = t.row * 80 + t.column :=
    Nat.mod_eq_of_lt (by omega)
  have hmod : (t.column + 1) % 2 ^ 64 = t.column + 1 := Nat.mod_eq_of_lt (by omega)
  -- the cells once the character has been written
  have hcells' : ∀ r c', r < 25 → c' < 80 →
      (Function.update t.buffer (t.row * 80 + t.column) (charCell c) (r * 80 + c')).setWidth 8 =
        Function.update log.cell log.current
          (Function.update (log.cell log.current) log.column c) (log.current - 24 + r) c' := by
    intro r c' hr hc'
    by_cases hhere : r = t.row ∧ c' = t.column
    · have hlog : log.current - 24 + r = log.current := by omega
      rw [hhere.1, hhere.2, Function.update_self, setWidth_charCell, ← hhere.1, hlog,
        Function.update_self, hcolumn_eq, Function.update_self]
    · rw [Function.update_of_ne (by omega), hcells r c' hr hc']
      by_cases hsame : r = t.row
      · have hlog : log.current - 24 + r = log.current := by omega
        rw [hlog, Function.update_self, Function.update_of_ne]
        rw [← hcolumn_eq]
        exact fun hc ↦ hhere ⟨hsame, hc⟩
      · rw [Function.update_of_ne (by omega)]
  rw [Terminal.addChar, hindex, Terminal.write, if_pos (by omega)]
  dsimp only
  rw [hmod, Log.output]
  dsimp only
  rw [← hcolumn_eq]
  by_cases hfull : t.column + 1 = 80
  · rw [if_pos hfull, if_pos hfull]
    refine newLine_window (fun r c' hr hr' ↦ ?_) hrow_eq (by rwa [← hcolumn_eq] at hcells')
    dsimp only
    rw [Function.update_of_ne (Nat.ne_of_gt hr)]
    exact hblank r c' hr hr'
  · rw [if_neg hfull, if_neg hfull]
    exact ⟨_, rfl, hrow, by dsimp only; omega, hrow_eq, rfl, by rwa [← hcolumn_eq] at hcells'⟩

theorem Log.BlankBelow.output {log : Log} (h : log.BlankBelow) (out : Output) :
    (log.output out).BlankBelow := by
  have hnew : ∀ {log : Log}, log.BlankBelow → log.newRow.BlankBelow :=
    fun h r c hr hr' ↦ h r c (Nat.lt_of_succ_lt hr) hr'
  cases out with
  | lineEnd => exact hnew h
  | char c =>
    have hwrite : Log.BlankBelow ⟨log.current, log.column + 1, Function.update log.cell log.current
        (Function.update (log.cell log.current) log.column c)⟩ := by
      intro r c' hr hr'
      dsimp only
      rw [Function.update_of_ne (Nat.ne_of_gt hr)]
      exact h r c' hr hr'
    rw [Log.output]
    dsimp only
    split_ifs
    · exact hnew hwrite
    · exact hwrite

/-- **One output keeps the screen a window on the log.** -/
theorem Window.output {log : Log} {t : Terminal} (hblank : log.BlankBelow) (hw : Window log t)
    (out : Output) : ∃ t', t.output out = .ok t' ∧ Window (log.output out) t' := by
  cases out with
  | char c => exact addChar_window hblank hw c
  | lineEnd => exact newLine_window hblank hw.row_eq hw.cells

/-! ## Output after output -/

/-- **A number of outputs keep the screen a window on the log.** -/
theorem Window.outputs {log : Log} {t : Terminal} (hblank : log.BlankBelow) (hw : Window log t)
    (outs : List Output) :
    ∃ t', t.outputs outs = .ok t' ∧ Window (outs.foldl Log.output log) t' := by
  induction outs generalizing log t with
  | nil => exact ⟨t, rfl, hw⟩
  | cons out outs ih =>
    obtain ⟨t₁, hrun, hw₁⟩ := hw.output hblank out
    rw [Terminal.outputs, hrun]
    exact ih (hblank.output out) hw₁

theorem window_start {t : Terminal} (hrow : t.row = 0) (hcolumn : t.column = 0) :
    Window (Log.start t.buffer) t where
  row_lt := by rw [hrow]; decide
  column_lt := by rw [hcolumn]; decide
  row_eq := by rw [hrow, Log.start, Nat.zero_min]
  column_eq := hcolumn
  cells r c hr _ := by
    dsimp only [Log.start]
    rw [Nat.zero_sub, Nat.zero_add, if_pos hr]

theorem blankBelow_start (buffer : ℕ → BitVec 16) : (Log.start buffer).BlankBelow :=
  fun _ _ _ hr ↦ if_neg (Nat.not_lt.mpr hr)

theorem Terminal.outputs_append (outs outs' : List Output) (t : Terminal) :
    t.outputs (outs ++ outs') =
      match t.outputs outs with
      | .error e => .error e
      | .ok t => t.outputs outs' := by
  induction outs generalizing t with
  | nil => rfl
  | cons out outs ih =>
    rw [List.cons_append, outputs, outputs]
    rcases t.output out with e | t₁
    · rfl
    · exact ih t₁

/-- One more output at the end. -/
theorem Terminal.outputs_concat (outs : List Output) (out : Output) (t : Terminal) :
    t.outputs (outs ++ [out]) =
      match t.outputs outs with
      | .error e => .error e
      | .ok t => t.output out := by
  rw [outputs_append]
  rcases t.outputs outs with e | t₁
  · rfl
  · dsimp only [outputs]
    rcases t₁.output out with e | t₂ <;> rfl

/-! ## The calls -/

theorem strlen_eq_length (text : List (BitVec 8)) :
    strlen text = (text.takeWhile (· ≠ 0#8)).length := by
  induction text with
  | nil => rfl
  | cons c text ih =>
    rw [strlen, List.takeWhile_cons]
    by_cases hc : c ≠ 0#8
    · rw [if_pos hc, if_pos (decide_eq_true hc), ih, List.length_cons]
    · rw [if_neg hc, if_neg (by simpa using hc), List.length_nil]

/-- The loop of `WriteLine` writes one character in each round. -/
theorem forRange_writeLineRound {text : List (BitVec 8)} {n : ℕ} (hn : n < 2 ^ 31)
    (hle : n ≤ strlen text) (t : Terminal) : forRange n (Terminal.writeLineRound text) t =
      t.outputs (((text.takeWhile (· ≠ 0#8)).take n).map Output.char) := by
  induction n with
  | zero => rfl
  | succ n ih =>
    have hlt : n < (text.takeWhile (· ≠ 0#8)).length := strlen_eq_length text ▸ hle
    have hget : text.getD n 0#8 = (text.takeWhile (· ≠ 0#8))[n] := by
      have htake := List.takeWhile_prefix (l := text) (fun c ↦ decide (c ≠ 0#8))
      rw [List.getD_eq_getElem text 0#8 (Nat.lt_of_lt_of_le hlt htake.length_le)]
      exact (htake.getElem hlt).symm
    rw [forRange, ih (by omega) (by omega), List.take_succ_eq_append_getElem hlt, List.map_append,
      List.map_singleton, Terminal.outputs_concat]
    rcases t.outputs (((text.takeWhile (· ≠ 0#8)).take n).map Output.char) with e | t₁
    · rfl
    · dsimp only
      rw [Terminal.writeLineRound, hget, Terminal.output]
      rcases Terminal.addChar _ t₁ with e | t₂
      · rfl
      · exact if_pos hn

/-- **`WriteLine` writes its characters**, and ends the line. -/
theorem writeLine_eq {text : List (BitVec 8)} (h : strlen text < 2 ^ 31) (t : Terminal) :
    t.writeLine text = t.outputs (TerminalCall.writeLine text).outputs := by
  rw [Terminal.writeLine, forRange_writeLineRound h le_rfl, strlen_eq_length, List.take_length,
    TerminalCall.outputs, Terminal.outputs_concat]
  rfl

/-- The loop of `WriteLong` writes one digit in each round. -/
theorem forRange_writeLongRound (val n : ℕ) (t : Terminal) :
    forRange n Terminal.writeLongRound (t, val) =
      match t.outputs ((List.range n).map fun i ↦
        Output.char (BitVec.ofNat 8 (48 + val / 10 ^ i % 10))) with
      | .error e => .error e
      | .ok t => .ok (t, val / 10 ^ n) := by
  induction n with
  | zero =>
    rw [Nat.pow_zero, Nat.div_one]
    rfl
  | succ n ih =>
    rw [forRange, ih, List.range_succ, List.map_append, List.map_singleton,
      Terminal.outputs_concat]
    rcases t.outputs ((List.range n).map fun i ↦
      Output.char (BitVec.ofNat 8 (48 + val / 10 ^ i % 10))) with e | t₁
    · rfl
    · dsimp only
      rw [Terminal.writeLongRound, Terminal.output]
      dsimp only
      rcases Terminal.addChar _ t₁ with e | t₂
      · rfl
      · rw [Nat.div_div_eq_div_mul, ← Nat.pow_succ]

/-- **`WriteLong` writes 79 digits**, and ends the line. -/
theorem writeLong_eq (val : BitVec 64) (t : Terminal) :
    t.writeLong val = t.outputs (TerminalCall.writeLong val).outputs := by
  unfold Terminal.writeLong TerminalCall.outputs
  rw [forRange_writeLongRound, Terminal.outputs_concat]
  rcases t.outputs ((List.range 79).map fun i ↦
    Output.char (BitVec.ofNat 8 (48 + val.toNat / 10 ^ i % 10))) with e | t₁ <;> rfl

theorem calls_eq {calls : List TerminalCall}
    (h : ∀ text, TerminalCall.writeLine text ∈ calls → strlen text < 2 ^ 31) (t : Terminal) :
    t.calls calls = t.outputs (calls.flatMap TerminalCall.outputs) := by
  induction calls generalizing t with
  | nil => rfl
  | cons call calls ih =>
    have hexec : call.exec t = t.outputs call.outputs := by
      cases call with
      | writeLine text => exact writeLine_eq (h text (by simp)) t
      | writeLong val => exact writeLong_eq val t
    rw [Terminal.calls, hexec, List.flatMap_cons, Terminal.outputs_append]
    rcases t.outputs call.outputs with e | t₁
    · rfl
    · exact ih (fun text htext ↦ h text (by simp [htext])) t₁

/-- **The screen is a window on the log.**  The calls come to their outputs one after the other, and
whenever some of these have been made the screen shows the last rows of the log. -/
theorem terminal_shows_log (t : Terminal) (hrow : t.row = 0) (hcolumn : t.column = 0)
    (calls : List TerminalCall)
    (hcalls : ∀ text, TerminalCall.writeLine text ∈ calls → strlen text < 2 ^ 31) :
    t.calls calls = t.outputs (calls.flatMap TerminalCall.outputs) ∧
    ∀ outs, outs <+: calls.flatMap TerminalCall.outputs → ∃ t', t.outputs outs = .ok t' ∧
      Window (outs.foldl Log.output (Log.start t.buffer)) t' :=
  ⟨calls_eq hcalls t, fun outs _ ↦
    (window_start hrow hcolumn).outputs (blankBelow_start t.buffer) outs⟩

/-- An empty screen. -/
def blankTerminal : Terminal := ⟨0, 0, fun _ ↦ blankCell⟩

/-- `"a"` on 24 lines, then 81 times `'b'`, then 7. -/
def scrollingCalls : List TerminalCall :=
  List.replicate 24 (.writeLine [0x61#8]) ++
    [.writeLine (List.replicate 81 0x62#8), .writeLong 7#64]

/-- The 81st `'b'` begins a new row, which moves everything up, and so do the ends of the last two
calls: of the `'b'` the screen shows 80 in its row 21 and one below. -/
theorem terminal_shows_log_scrolling : ∃ t, blankTerminal.calls scrollingCalls = .ok t ∧
    Window ((scrollingCalls.flatMap TerminalCall.outputs).foldl Log.output
      (Log.start fun _ ↦ blankCell)) t ∧
    t.row = 24 ∧ (t.buffer (21 * 80 + 79)).setWidth 8 = 0x62#8 ∧
    (t.buffer (22 * 80 + 0)).setWidth 8 = 0x62#8 ∧
    (t.buffer (22 * 80 + 1)).setWidth 8 = 0x20#8 := by
  have htext : ∀ text, TerminalCall.writeLine text ∈ scrollingCalls → strlen text < 2 ^ 31 := by
    intro text htext
    rcases List.mem_append.mp htext with h | h
    · obtain ⟨-, h⟩ := List.mem_replicate.mp h
      rw [TerminalCall.writeLine.injEq] at h
      rw [h]
      decide
    · simp only [List.mem_cons, TerminalCall.writeLine.injEq, reduceCtorEq, List.not_mem_nil,
        or_false] at h
      rw [h]
      decide
  obtain ⟨hrun, hshows⟩ := terminal_shows_log blankTerminal rfl rfl _ htext
  obtain ⟨t, hrun', hw⟩ := hshows _ (List.prefix_refl _)
  refine ⟨t, hrun.trans hrun', hw, hw.row_eq.trans (by decide +kernel), ?_, ?_, ?_⟩
  · exact (hw.cells 21 79 (by decide) (by decide)).trans (by decide +kernel)
  · exact (hw.cells 22 0 (by decide) (by decide)).trans (by decide +kernel)
  · exact (hw.cells 22 1 (by decide) (by decide)).trans (by decide +kernel)

end CubikOS
