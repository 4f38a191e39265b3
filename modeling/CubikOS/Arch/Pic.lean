import CubikOS.Arch.Idt
import CubikOS.Lib.InService

/-!
# The interrupt controllers

`PIC_Initialize`, `PIC_Disable` and `RestoreInterrupts` of `Kernel/arch/x86_64/pic.c`, over a model
of the two 8259s they program.

A controller has eight lines, and remembers which of them are in service.  It takes on a line that
goes before all of these, and when it is told the end of an interrupt it takes off the one that
goes first.  The second one is connected to line 2 of the first.  `DispatchInterrupts` calls
`RestoreInterrupts` whenever a handler has returned, whatever it was that was handled: exceptions
and software interrupts have no line, and neither has the interrupt 39 that the first controller
makes up when a request goes away.

* `picInitialize_eq` says what the controllers are after `PIC_Initialize`, whatever they were.
* `pic_in_service` says that the lines in service are those whose handlers are running, in every
  run in which nothing without a line is handled on top of them.
* `restore_other_iff` says what the end of something without a line does.
-/

set_option autoImplicit false

namespace CubikOS

open InService

/-! ## One controller -/

/-- What a controller expects at its data port: one of three words while it is initialised, and a
mask afterwards. -/
inductive Icw where
  | icw2
  | icw3
  | icw4
  | none
deriving DecidableEq

/-- An 8259. -/
structure Chip where
  /-- The first word of the initialisation. -/
  icw1 : BitVec 8
  /-- The next word. -/
  expects : Icw
  /-- The vector of line 0. -/
  offset : BitVec 8
  /-- The lines that other controllers are connected to, or the line of the other one that this
  one is connected to. -/
  cascade : BitVec 8
  /-- The mode. -/
  mode : BitVec 8
  /-- The lines that are turned off. -/
  mask : BitVec 8
  /-- The lines in service. -/
  inService : Finset (Fin 8)
deriving DecidableEq

namespace Chip

/-- A write to the command port. -/
def writeCommand (data : BitVec 8) (c : Chip) : Chip :=
  if data &&& 0x10#8 ≠ 0#8 then { c with icw1 := data, expects := .icw2, mask := 0#8 }
  else if data = 0x20#8 then { c with inService := finish c.inService }
  else c

/-- A write to the data port. -/
def writeData (data : BitVec 8) (c : Chip) : Chip :=
  let last := if c.icw1 &&& 0x01#8 ≠ 0#8 then Icw.icw4 else Icw.none
  match c.expects with
  | .icw2 => { c with
      offset := data &&& 0xF8#8
      expects := if c.icw1 &&& 0x02#8 = 0#8 then .icw3 else last }
  | .icw3 => { c with cascade := data, expects := last }
  | .icw4 => { c with mode := data, expects := .none }
  | .none => { c with mask := data }

/-- Line `k` is asked for, and goes before everything in service. -/
def Accepts (c : Chip) (k : Fin 8) : Prop := c.mask.getLsb k = false ∧ Before k c.inService

/-- Line `k` is taken on. -/
def acknowledge (c : Chip) (k : Fin 8) : Chip :=
  if c.mode &&& 0x02#8 = 0#8 then { c with inService := insert k c.inService } else c

/-- The vector of line `k`. -/
def vector (c : Chip) (k : Fin 8) : ℕ := (c.offset + BitVec.ofNat 8 k).toNat

end Chip

/-! ## The functions -/

/-- The two controllers. -/
structure Pics where
  /-- The one that is connected to the processor. -/
  master : Chip
  /-- The one that is connected to the other. -/
  slave : Chip
deriving DecidableEq

/-- `IoPorts_WriteByte8(port, data)`. -/
def writePort (p : Pics) (write : BitVec 16 × BitVec 8) : Pics :=
  if write.1 = 0x20#16 then { p with master := p.master.writeCommand write.2 }
  else if write.1 = 0x21#16 then { p with master := p.master.writeData write.2 }
  else if write.1 = 0xA0#16 then { p with slave := p.slave.writeCommand write.2 }
  else if write.1 = 0xA1#16 then { p with slave := p.slave.writeData write.2 }
  else p

/-- `PIC_Initialize()`. -/
def picInitialize (p : Pics) : Pics :=
  [(0x20#16, 0x11#8), (0xA0#16, 0x11#8), (0x21#16, 0x20#8), (0xA1#16, 0x28#8), (0x21#16, 0x04#8),
    (0xA1#16, 0x02#8), (0x21#16, 0x01#8), (0xA1#16, 0x01#8), (0x21#16, 0x0#8),
    (0xA1#16, 0x0#8)].foldl writePort p

/-- `PIC_Disable()`. -/
def picDisable (p : Pics) : Pics := [(0xA1#16, 0xFF#8), (0x21#16, 0xFF#8)].foldl writePort p

/-- `RestoreInterrupts(i)`. -/
def restoreInterrupts (i : ℕ) (p : Pics) : Pics :=
  let p := if 40 ≤ i then writePort p (0xA0#16, 0x20#8) else p
  writePort p (0x20#16, 0x20#8)

/-! ## Interrupts -/

/-- Where an interrupt comes from: a line of one of the two controllers, the second one whose
request has gone away, or no line. -/
inductive InterruptSource where
  | master (k : Fin 8)
  | slave (k : Fin 8)
  | spurious
  | other
deriving DecidableEq

/-- The line of the first controller. -/
def InterruptSource.masterLine : InterruptSource → Option (Fin 8)
  | master k => some k
  | slave _ => some 2
  | spurious => some 2
  | other => none

/-- The line of the second one. -/
def InterruptSource.slaveLine : InterruptSource → Option (Fin 8)
  | master _ => none
  | slave k => some k
  | spurious => none
  | other => none

/-- An interrupt whose handler is running. -/
structure RunningHandler where
  /-- Where it comes from. -/
  source : InterruptSource
  /-- Its vector. -/
  vector : ℕ

/-- `context->intno`, which is what the stub has pushed. -/
def RunningHandler.intno (a : RunningHandler) : ℕ := gateTarget a.vector

/-- The controllers, and what is being handled, the last first. -/
structure Interrupts where
  /-- The controllers. -/
  pics : Pics
  /-- What is being handled. -/
  active : List RunningHandler

/-- An interrupt is raised, or a handler returns.  In a spurious interrupt the second controller
asks and does not know what for, and an interrupt without a line comes where none with a line is
being handled. -/
inductive PicStep : Interrupts → Interrupts → Prop where
  | master {s : Interrupts} {k : Fin 8} (hk : k ≠ 2) (h : s.pics.master.Accepts k) :
      PicStep s ⟨⟨s.pics.master.acknowledge k, s.pics.slave⟩,
        ⟨.master k, s.pics.master.vector k⟩ :: s.active⟩
  | slave {s : Interrupts} {k : Fin 8} (h : s.pics.master.Accepts 2) (h' : s.pics.slave.Accepts k) :
      PicStep s ⟨⟨s.pics.master.acknowledge 2, s.pics.slave.acknowledge k⟩,
        ⟨.slave k, s.pics.slave.vector k⟩ :: s.active⟩
  | spurious {s : Interrupts} (h : s.pics.master.Accepts 2) :
      PicStep s ⟨⟨s.pics.master.acknowledge 2, s.pics.slave⟩,
        ⟨.spurious, s.pics.slave.vector 7⟩ :: s.active⟩
  | other {s : Interrupts} (h : ∀ a ∈ s.active, a.source = .other) (v : Fin 256) :
      PicStep s ⟨s.pics, ⟨.other, v⟩ :: s.active⟩
  | restore {p : Pics} {a : RunningHandler} {rest : List RunningHandler} :
      PicStep ⟨p, a :: rest⟩ ⟨restoreInterrupts a.intno p, rest⟩

/-- The lines of the first controller whose handlers are running. -/
def masterLines (active : List RunningHandler) : List (Fin 8) :=
  active.filterMap (·.source.masterLine)

/-- Those of the second one. -/
def slaveLines (active : List RunningHandler) : List (Fin 8) :=
  active.filterMap (·.source.slaveLine)

/-- The lines in service are the ones whose handlers are running. -/
structure Interrupts.Exact (s : Interrupts) : Prop where
  /-- Of the first controller, the lines whose handlers are running are in service. -/
  master : s.pics.master.inService = (masterLines s.active).toFinset
  /-- So they are of the second one. -/
  slave : s.pics.slave.inService = (slaveLines s.active).toFinset

/-! ## The controllers after `PIC_Initialize` -/

/-- **What the controllers are**, whatever they were. -/
theorem picInitialize_eq (p : Pics) : picInitialize p =
    ⟨⟨0x11#8, .none, 0x20#8, 0x04#8, 0x01#8, 0#8, p.master.inService⟩,
      ⟨0x11#8, .none, 0x28#8, 0x02#8, 0x01#8, 0#8, p.slave.inService⟩⟩ := by
  simp [picInitialize, writePort, Chip.writeCommand, Chip.writeData]

/-- Once they are initialised, `PIC_Disable` turns all lines off. -/
theorem picDisable_not_accepts {p : Pics} (hmaster : p.master.expects = .none)
    (hslave : p.slave.expects = .none) (k : Fin 8) :
    ¬ (picDisable p).master.Accepts k ∧ ¬ (picDisable p).slave.Accepts k := by
  have hmask : (picDisable p).master.mask = 0xFF#8 ∧ (picDisable p).slave.mask = 0xFF#8 := by
    simp [picDisable, writePort, Chip.writeData, hmaster, hslave]
  have hall : ∀ k : Fin 8, (0xFF#8).getLsb k = true := by decide
  refine ⟨fun h ↦ ?_, fun h ↦ ?_⟩
  · have hoff := h.1
    rw [hmask.1, hall] at hoff
    cases hoff
  · have hoff := h.1
    rw [hmask.2, hall] at hoff
    cases hoff

/-! ## The end of an interrupt -/

/-- The end of an interrupt, for one controller. -/
def Chip.ended (c : Chip) : Chip := { c with inService := finish c.inService }

theorem restoreInterrupts_of_lt {i : ℕ} (h : i < 40) (p : Pics) :
    restoreInterrupts i p = ⟨p.master.ended, p.slave⟩ := by
  rw [restoreInterrupts, if_neg (by omega)]
  rfl

theorem restoreInterrupts_of_le {i : ℕ} (h : 40 ≤ i) (p : Pics) :
    restoreInterrupts i p = ⟨p.master.ended, p.slave.ended⟩ := by
  rw [restoreInterrupts, if_pos h]
  rfl

theorem Chip.ended_of_empty {c : Chip} (h : c.inService = ∅) : c.ended = c := by
  rw [Chip.ended, h, finish_empty, ← h]

/-- With nothing in service, it does nothing. -/
theorem restoreInterrupts_of_empty (i : ℕ) {p : Pics} (hmaster : p.master.inService = ∅)
    (hslave : p.slave.inService = ∅) : restoreInterrupts i p = p := by
  rcases lt_or_ge i 40 with h | h
  · rw [restoreInterrupts_of_lt h, Chip.ended_of_empty hmaster]
  · rw [restoreInterrupts_of_le h, Chip.ended_of_empty hmaster, Chip.ended_of_empty hslave]

/-! ## Which line goes before which -/

theorem masterLines_cons {a : RunningHandler} {k : Fin 8} (h : a.source.masterLine = some k)
    (rest : List RunningHandler) : masterLines (a :: rest) = k :: masterLines rest :=
  List.filterMap_cons_some h

theorem masterLines_cons_none {a : RunningHandler} (h : a.source.masterLine = none)
    (rest : List RunningHandler) : masterLines (a :: rest) = masterLines rest :=
  List.filterMap_cons_none h

theorem slaveLines_cons {a : RunningHandler} {k : Fin 8} (h : a.source.slaveLine = some k)
    (rest : List RunningHandler) : slaveLines (a :: rest) = k :: slaveLines rest :=
  List.filterMap_cons_some h

theorem slaveLines_cons_none {a : RunningHandler} (h : a.source.slaveLine = none)
    (rest : List RunningHandler) : slaveLines (a :: rest) = slaveLines rest :=
  List.filterMap_cons_none h

theorem masterLines_eq_nil {active : List RunningHandler} :
    masterLines active = [] ↔ ∀ a ∈ active, a.source = .other := by
  rw [masterLines, List.filterMap_eq_nil_iff]
  refine forall₂_congr fun a _ ↦ ?_
  cases a.source <;> simp [InterruptSource.masterLine]

/-- The second controller is connected to line 2. -/
theorem slaveLines_eq_nil {active : List RunningHandler} (h : 2 ∉ masterLines active) :
    slaveLines active = [] := by
  rw [slaveLines, List.filterMap_eq_nil_iff]
  intro a ha
  have hne : a.source.masterLine ≠ some 2 := fun h2 ↦ h (List.mem_filterMap.mpr ⟨a, ha, h2⟩)
  cases hsource : a.source <;> simp_all [InterruptSource.masterLine, InterruptSource.slaveLine]

/-- What is handled on top of something goes before it, and is handled on top of nothing if it
has no line. -/
def NestedLines : List RunningHandler → Prop
  | [] => True
  | a :: rest => (∀ k ∈ a.source.masterLine, Before k (masterLines rest).toFinset) ∧
      (a.source = .other → masterLines rest = []) ∧ NestedLines rest

theorem NestedLines.before {active : List RunningHandler} {k : Fin 8} {l : List (Fin 8)}
    (h : NestedLines active) (hl : masterLines active = k :: l) : Before k l.toFinset := by
  induction active with
  | nil => cases hl
  | cons a rest ih =>
    obtain ⟨hbefore, -, hnest⟩ := h
    rcases hline : a.source.masterLine with _ | k'
    · rw [masterLines_cons_none hline] at hl
      exact ih hnest hl
    · rw [masterLines_cons hline, List.cons.injEq] at hl
      rw [← hl.1, ← hl.2]
      exact hbefore k' hline

/-- At most one line of the second controller is in service. -/
theorem NestedLines.slave_tail {active : List RunningHandler} {k : Fin 8} {l : List (Fin 8)}
    (h : NestedLines active) (hl : slaveLines active = k :: l) : l = [] := by
  induction active with
  | nil => cases hl
  | cons a rest ih =>
    obtain ⟨hbefore, -, hnest⟩ := h
    rcases hline : a.source.slaveLine with _ | k'
    · rw [slaveLines_cons_none hline] at hl
      exact ih hnest hl
    · rw [slaveLines_cons hline, List.cons.injEq] at hl
      rw [← hl.2]
      have htwo : a.source.masterLine = some 2 := by
        cases hsource : a.source <;>
          simp_all [InterruptSource.masterLine, InterruptSource.slaveLine]
      exact slaveLines_eq_nil fun hmem ↦
        lt_irrefl 2 (hbefore 2 htwo 2 (List.mem_toFinset.mpr hmem))

/-- From which controller a vector comes. -/
def RunningHandler.Numbered (a : RunningHandler) : Prop :=
  match a.source with
  | .master _ => a.intno < 40
  | .slave _ => 40 ≤ a.intno
  | .spurious => 40 ≤ a.intno
  | .other => True

/-! ## Runs -/

/-- What is so in every state. -/
structure PicInv (s : Interrupts) : Prop where
  /-- The first controller has the vectors from 32 on, the second one those from 40 on. -/
  offset : s.pics.master.offset = 0x20#8 ∧ s.pics.slave.offset = 0x28#8
  /-- The end of an interrupt has to be told. -/
  mode : s.pics.master.mode = 0x01#8 ∧ s.pics.slave.mode = 0x01#8
  /-- Every interrupt that has a line has a number of its own controller. -/
  numbered : ∀ a ∈ s.active, a.Numbered
  /-- Every handler runs on top of handlers that it goes before. -/
  nested : NestedLines s.active
  /-- The lines in service are the ones whose handlers are running. -/
  exact : s.Exact

theorem Chip.acknowledge_eq {c : Chip} (h : c.mode = 0x01#8) (k : Fin 8) :
    c.acknowledge k = { c with inService := insert k c.inService } := by
  rw [Chip.acknowledge, if_pos (by rw [h]; decide)]

theorem intno_master {c : Chip} (h : c.offset = 0x20#8) (source : InterruptSource) (k : Fin 8) :
    (⟨source, c.vector k⟩ : RunningHandler).intno < 40 := by
  have hall : ∀ k : Fin 8, gateTarget (0x20#8 + BitVec.ofNat 8 k).toNat < 40 := by decide
  rw [RunningHandler.intno, Chip.vector, h]
  exact hall k

theorem intno_slave {c : Chip} (h : c.offset = 0x28#8) (source : InterruptSource) (k : Fin 8) :
    40 ≤ (⟨source, c.vector k⟩ : RunningHandler).intno := by
  have hall : ∀ k : Fin 8, 40 ≤ gateTarget (0x28#8 + BitVec.ofNat 8 k).toNat := by decide
  rw [RunningHandler.intno, Chip.vector, h]
  exact hall k

/-- An interrupt that has a line. -/
theorem PicInv.taken {s : Interrupts} {a : RunningHandler} {k : Fin 8} {slave : Chip} (h : PicInv s)
    (hline : a.source.masterLine = some k) (haccepts : s.pics.master.Accepts k)
    (hnum : a.Numbered) (hoffset : slave.offset = 0x28#8) (hmode : slave.mode = 0x01#8)
    (hlines : slave.inService = (slaveLines (a :: s.active)).toFinset) :
    PicInv ⟨⟨s.pics.master.acknowledge k, slave⟩, a :: s.active⟩ := by
  rw [Chip.acknowledge_eq h.mode.1]
  refine ⟨⟨h.offset.1, hoffset⟩, ⟨h.mode.1, hmode⟩, ?_, ⟨?_, ?_, h.nested⟩, ?_, hlines⟩
  · rintro b (_ | ⟨_, hb⟩)
    · exact hnum
    · exact h.numbered b hb
  · intro k' hk'
    obtain rfl : k = k' := Option.some.inj (hline.symm.trans hk')
    rw [← h.exact.master]
    exact haccepts.2
  · intro hother
    rw [hother] at hline
    cases hline
  · rw [masterLines_cons hline, List.toFinset_cons, ← h.exact.master]

/-- The handler of an interrupt that has a line returns. -/
theorem finish_lines {l : List (Fin 8)} {s : Finset (Fin 8)} {k : Fin 8}
    (hs : s = (k :: l).toFinset) (h : Before k l.toFinset) : finish s = l.toFinset := by
  rw [hs, List.toFinset_cons, finish_insert h]

/-- **Step.**  Handlers return in the order in which the controllers take off their lines. -/
theorem PicInv.step {s s' : Interrupts} (h : PicInv s) (hstep : PicStep s s') : PicInv s' := by
  cases hstep with
  | @master _ k _ haccepts =>
    exact h.taken rfl haccepts (intno_master h.offset.1 _ k) h.offset.2 h.mode.2 h.exact.slave
  | @slave _ k haccepts _ =>
    refine h.taken rfl haccepts (intno_slave h.offset.2 _ k) ?_ ?_ ?_ <;>
      rw [Chip.acknowledge_eq h.mode.2]
    · exact h.offset.2
    · exact h.mode.2
    · rw [slaveLines_cons rfl, List.toFinset_cons, ← h.exact.slave]
  | spurious haccepts =>
    exact h.taken rfl haccepts (intno_slave h.offset.2 _ 7) h.offset.2 h.mode.2 h.exact.slave
  | other hother v =>
    refine ⟨h.offset, h.mode, ?_, ⟨?_, fun _ ↦ masterLines_eq_nil.mpr hother, h.nested⟩,
      h.exact.master, h.exact.slave⟩
    · rintro a (_ | ⟨_, ha⟩)
      · trivial
      · exact h.numbered a ha
    · rintro _ ⟨⟩
  | @restore p a rest =>
    obtain ⟨hoffset, hmode, hnum, ⟨hbefore, hother, hnest⟩, hmaster, hslave⟩ := h
    have hrest := fun b hb ↦ hnum b (List.mem_cons_of_mem a hb)
    have hself := hnum a List.mem_cons_self
    -- nothing of the second controller is below something that takes line 2
    have hnone : a.source.masterLine = some 2 → slaveLines rest = [] := fun h2 ↦
      slaveLines_eq_nil fun hmem ↦ lt_irrefl 2 (hbefore 2 h2 2 (List.mem_toFinset.mpr hmem))
    obtain ⟨source, vector⟩ := a
    cases source with
    | master k =>
      rw [restoreInterrupts_of_lt hself]
      exact ⟨hoffset, hmode, hrest, hnest, finish_lines hmaster (hbefore k rfl), hslave⟩
    | slave k =>
      rw [restoreInterrupts_of_le hself]
      refine ⟨hoffset, hmode, hrest, hnest, finish_lines hmaster (hbefore 2 rfl), ?_⟩
      refine finish_lines hslave ?_
      rw [hnone rfl]
      exact fun _ hb ↦ absurd hb (Finset.notMem_empty _)
    | spurious =>
      have hempty : p.slave.inService = (slaveLines rest).toFinset := hslave
      rw [hnone rfl, List.toFinset_nil] at hempty
      rw [restoreInterrupts_of_le hself, Chip.ended_of_empty hempty]
      exact ⟨hoffset, hmode, hrest, hnest, finish_lines hmaster (hbefore 2 rfl), hslave⟩
    | other =>
      have hrestm : p.master.inService = (masterLines rest).toFinset := hmaster
      have hrests : p.slave.inService = (slaveLines rest).toFinset := hslave
      have hnil : slaveLines rest = [] := slaveLines_eq_nil (by rw [hother rfl]; simp)
      rw [restoreInterrupts_of_empty]
      · exact ⟨hoffset, hmode, hrest, hnest, hrestm, hrests⟩
      · rw [hrestm, hother rfl, List.toFinset_nil]
      · rw [hrests, hnil, List.toFinset_nil]

/-- **Run.** -/
theorem PicInv.run {s s' : Interrupts} (h : PicInv s) (hrun : Relation.ReflTransGen PicStep s s') :
    PicInv s' := by
  induction hrun with
  | refl => exact h
  | tail _ hstep ih => exact ih.step hstep

/-- Nothing is in service. -/
structure Pics.Quiet (p : Pics) : Prop where
  /-- No line of the first controller is in service. -/
  master : p.master.inService = ∅
  /-- No line of the second one is in service. -/
  slave : p.slave.inService = ∅

theorem Pics.Quiet.picInv {p : Pics} (h : p.Quiet) : PicInv ⟨picInitialize p, []⟩ := by
  rw [picInitialize_eq]
  exact ⟨⟨rfl, rfl⟩, ⟨rfl, rfl⟩, by simp, trivial, h.master, h.slave⟩

/-! ## The results -/

/-- **The lines in service are those whose handlers are running**, in every state of every run. -/
theorem pic_in_service {p : Pics} (hp : p.Quiet) {s : Interrupts}
    (hrun : Relation.ReflTransGen PicStep ⟨picInitialize p, []⟩ s) : s.Exact :=
  (hp.picInv.run hrun).exact

/-- Controllers that have just been turned on. -/
def poweredOn : Pics :=
  ⟨⟨0#8, .none, 0#8, 0#8, 0#8, 0#8, ∅⟩, ⟨0#8, .none, 0#8, 0#8, 0#8, 0#8, ∅⟩⟩

theorem poweredOn_quiet : poweredOn.Quiet := ⟨rfl, rfl⟩

/-- The timer, while the keyboard is being handled. -/
def keyboardTimer : Interrupts where
  pics := ⟨((picInitialize poweredOn).master.acknowledge 1).acknowledge 0,
    (picInitialize poweredOn).slave⟩
  active := [⟨.master 0, 32⟩, ⟨.master 1, 33⟩]

theorem keyboardTimer_run :
    Relation.ReflTransGen PicStep ⟨picInitialize poweredOn, []⟩ keyboardTimer := by
  rw [keyboardTimer, picInitialize_eq]
  refine (Relation.ReflTransGen.single (PicStep.master (k := 1) (by decide) ?_)).tail
    (PicStep.master (k := 0) (by decide) ?_)
  · exact ⟨by decide, by decide⟩
  · exact ⟨by decide, by decide⟩

theorem pic_in_service_timer : keyboardTimer.Exact :=
  pic_in_service poweredOn_quiet keyboardTimer_run

/-- **The end of an interrupt that has no line.**  It takes off the first controller's line of the
last interrupt that has one, and the second controller's if its own number is 40 or more.  It leaves
the controllers as they were if and only if there is none. -/
theorem restore_other_iff {p : Pics} (hp : p.Quiet) {s : Interrupts}
    (hrun : Relation.ReflTransGen PicStep ⟨picInitialize p, []⟩ s) (v : Fin 256) :
    (restoreInterrupts (⟨.other, v⟩ : RunningHandler).intno s.pics).master.inService =
        (masterLines s.active).tail.toFinset ∧
      (restoreInterrupts (⟨.other, v⟩ : RunningHandler).intno s.pics).slave.inService =
        (if 40 ≤ (⟨.other, v⟩ : RunningHandler).intno then (slaveLines s.active).tail.toFinset
          else (slaveLines s.active).toFinset) ∧
      (restoreInterrupts (⟨.other, v⟩ : RunningHandler).intno s.pics = s.pics ↔
        ∀ a ∈ s.active, a.source = .other) := by
  have hinv := hp.picInv.run hrun
  obtain ⟨hmaster, hslave⟩ := hinv.exact
  rw [← masterLines_eq_nil]
  have hended : (restoreInterrupts (⟨.other, v⟩ : RunningHandler).intno s.pics).master.inService =
      finish s.pics.master.inService := by
    rcases lt_or_ge (⟨.other, v⟩ : RunningHandler).intno 40 with hlt | hle
    · rw [restoreInterrupts_of_lt hlt, Chip.ended]
    · rw [restoreInterrupts_of_le hle, Chip.ended]
  refine ⟨?_, ?_, fun h ↦ ?_, fun h ↦ ?_⟩
  · rw [hended, hmaster]
    rcases hlines : masterLines s.active with _ | ⟨k, l⟩
    · rfl
    · exact finish_lines rfl (hinv.nested.before hlines)
  · rcases lt_or_ge (⟨.other, v⟩ : RunningHandler).intno 40 with hlt | hle
    · rw [restoreInterrupts_of_lt hlt, if_neg (Nat.not_le.mpr hlt), hslave]
    · rw [restoreInterrupts_of_le hle, if_pos hle, Chip.ended, Chip.ended]
      dsimp only
      rw [hslave]
      rcases hlines : slaveLines s.active with _ | ⟨k, l⟩
      · rfl
      · obtain rfl := hinv.nested.slave_tail hlines
        exact finish_lines rfl fun _ hb ↦ absurd hb (Finset.notMem_empty _)
  · rw [h] at hended
    have hempty := finish_eq_self.mp hended.symm
    rwa [hmaster, List.toFinset_eq_empty_iff] at hempty
  · refine restoreInterrupts_of_empty _ ?_ ?_
    · rw [hmaster, h, List.toFinset_nil]
    · rw [hslave, slaveLines_eq_nil (by rw [h]; simp), List.toFinset_nil]

/-- A page fault in the handler of the timer. -/
theorem restore_other_iff_14 :
    restoreInterrupts (⟨.other, 14⟩ : RunningHandler).intno keyboardTimer.pics ≠
      keyboardTimer.pics :=
  fun h ↦ absurd ((restore_other_iff poweredOn_quiet keyboardTimer_run 14).2.2.mp h ⟨.master 0, 32⟩
    List.mem_cons_self) (by decide)

end CubikOS
