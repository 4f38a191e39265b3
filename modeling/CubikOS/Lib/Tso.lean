import Mathlib

/-!
# Memory with store buffers

Processors that share a memory, each of which has its writes on their way to it for a while: total
store order, as on x86.  A processor reads its own writes before the others do; they arrive in the
order they were made in, but no two processors need agree on when.  A locked exchange waits until
the writes of its processor have arrived.

* `writeAll` makes a list of writes, one after the other, and all that is read is stated with it:
  what a processor reads is memory with its own writes made (`Memory.read`).
* `Silent` says that none of the writes on their way is to some addresses.  Where all processors but
  one are silent, what that one reads does not depend on what has arrived (`read_flush_of_silent`).
-/

set_option autoImplicit false

namespace Tso

variable {ι α β : Type}

/-! ## Lists of writes -/

section WriteAll

variable [DecidableEq α]

/-- The writes `l`, one after the other. -/
def writeAll (f : α → β) (l : List (α × β)) : α → β :=
  l.foldl (fun f w ↦ Function.update f w.1 w.2) f

@[simp] theorem writeAll_nil (f : α → β) : writeAll f [] = f := rfl

@[simp] theorem writeAll_cons (f : α → β) (w : α × β) (l : List (α × β)) :
    writeAll f (w :: l) = writeAll (Function.update f w.1 w.2) l := rfl

theorem writeAll_append (f : α → β) (l l' : List (α × β)) :
    writeAll f (l ++ l') = writeAll (writeAll f l) l' :=
  List.foldl_append

/-- The last write to an address is what is there. -/
theorem writeAll_concat (f : α → β) (l : List (α × β)) (w : α × β) :
    writeAll f (l ++ [w]) = Function.update (writeAll f l) w.1 w.2 := by
  rw [writeAll_append, writeAll_cons, writeAll_nil]

/-- Where nothing is written, nothing changes. -/
theorem writeAll_of_ne {f : α → β} {l : List (α × β)} {a : α} (h : ∀ w ∈ l, w.1 ≠ a) :
    writeAll f l a = f a := by
  induction l generalizing f with
  | nil => rfl
  | cons w l ih =>
    rw [writeAll_cons, ih fun w' hw' ↦ h w' (List.mem_cons_of_mem _ hw'),
      Function.update_of_ne (h w List.mem_cons_self).symm]

/-- What is at one address does not depend on what was at the others. -/
theorem writeAll_congr {f g : α → β} {a : α} (l : List (α × β)) (h : f a = g a) :
    writeAll f l a = writeAll g l a := by
  induction l generalizing f g with
  | nil => exact h
  | cons w l ih =>
    rw [writeAll_cons, writeAll_cons]
    refine ih ?_
    rw [Function.update_apply, Function.update_apply, h]

end WriteAll

/-! ## The memory -/

/-- The memory, and for each processor the writes on their way to it, the oldest first. -/
structure Memory (ι α β : Type) where
  /-- What has arrived. -/
  mem : α → β
  /-- What is on its way. -/
  buffer : ι → List (α × β)

namespace Memory

/-- What processor `i` reads. -/
def read [DecidableEq α] (m : Memory ι α β) (i : ι) (a : α) : β := writeAll m.mem (m.buffer i) a

/-- Processor `i` writes. -/
def write [DecidableEq ι] (m : Memory ι α β) (i : ι) (a : α) (v : β) : Memory ι α β :=
  { m with buffer := Function.update m.buffer i (m.buffer i ++ [(a, v)]) }

/-- The oldest write of processor `i` arrives. -/
def flush [DecidableEq ι] [DecidableEq α] (m : Memory ι α β) (i : ι) : Memory ι α β where
  mem := writeAll m.mem ((m.buffer i).take 1)
  buffer := Function.update m.buffer i ((m.buffer i).drop 1)

/-- A locked exchange, of a processor whose writes have all arrived.  What is read is `m.mem a`. -/
def exchange [DecidableEq α] (m : Memory ι α β) (a : α) (v : β) : Memory ι α β :=
  { m with mem := Function.update m.mem a v }

@[simp] theorem write_mem [DecidableEq ι] (m : Memory ι α β) (i : ι) (a : α) (v : β) :
    (m.write i a v).mem = m.mem := rfl

@[simp] theorem exchange_mem [DecidableEq α] (m : Memory ι α β) (a : α) (v : β) :
    (m.exchange a v).mem = Function.update m.mem a v := rfl

theorem write_buffer [DecidableEq ι] (m : Memory ι α β) (i j : ι) (a : α) (v : β) :
    (m.write i a v).buffer j = if j = i then m.buffer i ++ [(a, v)] else m.buffer j :=
  Function.update_apply ..

/-- Once its writes have arrived, a processor reads memory. -/
theorem read_of_nil [DecidableEq α] {m : Memory ι α β} {i : ι} (h : m.buffer i = []) (a : α) :
    m.read i a = m.mem a := by
  rw [read, h, writeAll_nil]

/-- A locked exchange elsewhere makes no difference. -/
theorem read_exchange_of_ne [DecidableEq α] (m : Memory ι α β) (i : ι) {a b : α} (h : b ≠ a)
    (v : β) : (m.exchange a v).read i b = m.read i b :=
  writeAll_congr _ (Function.update_of_ne h _ _)

variable [DecidableEq ι] [DecidableEq α] (m : Memory ι α β) (i j : ι) (a b : α) (v : β)

theorem flush_buffer : (m.flush i).buffer j =
    if j = i then (m.buffer i).drop 1 else m.buffer j :=
  Function.update_apply ..

/-- A processor reads its own write at once. -/
theorem read_write_self : (m.write i a v).read i b = if b = a then v else m.read i b := by
  rw [read, write_buffer, if_pos rfl, write_mem, writeAll_concat, Function.update_apply]
  rfl

/-- The others do not read it until it has arrived. -/
theorem read_write_of_ne (h : j ≠ i) : (m.write i a v).read j b = m.read j b := by
  rw [read, write_buffer, if_neg h, write_mem, read]

/-- That a write of its own arrives is nothing to a processor. -/
theorem read_flush_self : (m.flush i).read i a = m.read i a := by
  rw [read, flush_buffer, if_pos rfl, flush, ← writeAll_append, List.take_append_drop]
  rfl

end Memory

/-! ## Processors that write elsewhere -/

section Silent

/-- Nothing that processor `i` has on its way is for `S`. -/
def Silent (m : Memory ι α β) (S : Set α) (i : ι) : Prop := ∀ w ∈ m.buffer i, w.1 ∉ S

theorem Silent.of_nil {m : Memory ι α β} {S : Set α} {i : ι} (h : m.buffer i = []) :
    Silent m S i := by
  rw [Silent, h]
  simp

/-- Where nothing is on its way, memory is what is read. -/
theorem Silent.read [DecidableEq α] {m : Memory ι α β} {S : Set α} {i : ι} (h : Silent m S i)
    {a : α} (ha : a ∈ S) : m.read i a = m.mem a :=
  writeAll_of_ne fun w hw hwa ↦ h w hw (hwa ▸ ha)

theorem Silent.write [DecidableEq ι] {m : Memory ι α β} {S : Set α} {i j : ι}
    (h : Silent m S i) {a : α} (ha : i = j → a ∉ S) (v : β) : Silent (m.write j a v) S i := by
  intro w hw
  rw [Memory.write_buffer] at hw
  split at hw
  · rename_i hij
    rcases List.mem_append.mp hw with hw | hw
    · exact h w (hij ▸ hw)
    · obtain rfl := List.mem_singleton.mp hw
      exact ha hij
  · exact h w hw

variable [DecidableEq ι] [DecidableEq α] {m : Memory ι α β} {i j : ι} {S : Set α}

theorem Silent.flush (h : Silent m S i) (j : ι) : Silent (m.flush j) S i := by
  intro w hw
  rw [Memory.flush_buffer] at hw
  split at hw
  · rename_i hij
    exact h w (hij ▸ List.mem_of_mem_drop hw)
  · exact h w hw

/-- What arrives from a silent processor is for other addresses. -/
theorem Silent.flush_mem (h : Silent m S i) {a : α} (ha : a ∈ S) :
    (m.flush i).mem a = m.mem a := by
  refine writeAll_of_ne fun w hw hwa ↦ ?_
  exact h w (List.mem_of_mem_take hw) (hwa ▸ ha)

/-- What is read where the others are silent does not depend on what has arrived. -/
theorem read_flush_of_silent (h : j ≠ i → Silent m S j) {a : α} (ha : a ∈ S) :
    (m.flush j).read i a = m.read i a := by
  rcases eq_or_ne j i with rfl | hne
  · exact m.read_flush_self j a
  · rw [Memory.read, Memory.flush_buffer, if_neg hne.symm]
    exact writeAll_congr _ ((h hne).flush_mem ha)

end Silent

end Tso
