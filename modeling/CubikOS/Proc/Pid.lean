import CubikOS.Proc.Name

/-!
# The numbers of processes

`GetNextPID` and `GetProcessByPID` of `Kernel/src/proc/sched.c`, and `CreateProcessEx` of
`Kernel/src/proc/proc.c` with the number that it gives to the new process.

The numbers have 16 bits and are given in order, from 0 on.  `processListByPid` is there to look
them up, but nothing is ever put into it.

* `createProcessEx_ok` says what a call does to the counter and to the list.
* `run_ok` says the same of a number of calls.
* `pids_nodup_iff` says how long the numbers are all different.
* `processes_found_iff` is about looking them up.

The memory of the process is that of the slab allocator, where `m_ProcessId` has its two bytes.
`VM_CreatePagemap` is empty.  The other members of the process are left out, and those of its
thread.
-/

set_option autoImplicit false

namespace CubikOS

open Bytes

/-! ## The functions -/

/-- The globals of `sched.c` that have to do with numbers, and the memory. -/
structure Sched where
  /-- The slab allocator. -/
  slab : SlabState
  /-- The next number. -/
  currentProcessId : BitVec 16
  /-- The processes, by number. -/
  processListByPid : BitVec 16 → ℕ

/-- A process that was created. -/
structure Created where
  /-- The process. -/
  addr : ℕ
  /-- The number it was given. -/
  pid : BitVec 16
deriving DecidableEq

/-- What a call of `CreateProcessEx` is given, and what it finds on the stack and behind
`g_cachePointers`. -/
structure CreateCall where
  /-- The processor it is made on. -/
  cpu : CpuIndex
  /-- The stack in each call that it makes. -/
  junk : ℕ → Stack
  /-- `g_cachePointers[16]`. -/
  beyond : Option CacheIndex
  /-- The activity, or 0. -/
  activity : ℕ
  /-- The name. -/
  name : List (BitVec 8)

/-- `*newProc = ...`, as far as it goes with the number. -/
def setProcessId (proc : ℕ) (pid : BitVec 16) (slab : SlabState) : Except Fault SlabState :=
  if slab.mapped (proc / archPageSize) && slab.mapped ((proc + 143) % 2 ^ 64 / archPageSize) then
    .ok { slab with mem := storeBytes slab.mem ((proc + 24) % 2 ^ 64) 2 pid.toNat }
  else .error .pageFault

/-- `CreateThread(proc)`, as far as it goes with memory.  The index of the cache is one more than
there are. -/
def createThread (supply : ℕ → PageGrant) (cpu : CpuIndex) (junk : Stack)
    (beyond : Option CacheIndex) (slab : SlabState) (proc : ℕ) : Except Fault SlabState :=
  if proc = 0 then .ok slab
  else match slabAllocateObject supply junk slab beyond cpu with
    | .error f => .error f
    | .ok (_, slab) => .ok slab

namespace Sched

/-- `GetNextPID()`. -/
def getNextPID (s : Sched) : BitVec 16 × Sched :=
  (s.currentProcessId, { s with currentProcessId := s.currentProcessId + 1#16 })

/-- `GetProcessByPID(pid)`. -/
def getProcessByPID (s : Sched) (pid : BitVec 16) : ℕ :=
  if pid.toNat > 65535 then 0 else s.processListByPid pid

/-- `proc->m_ProcessId`. -/
def processId (s : Sched) (proc : ℕ) : BitVec 16 :=
  BitVec.ofNat 16 (readBytes s.slab.mem ((proc + 24) % 2 ^ 64) 2)

/-- `CreateProcessEx(activity, type, file, name)`. -/
def createProcessEx (supply : ℕ → PageGrant) (call : CreateCall) (s : Sched) :
    Except NameFault (Created × Sched) :=
  let (pid, s) := s.getNextPID
  match CubikOS.createProcessEx supply call.cpu (fun proc ↦ setProcessId proc pid) call.junk s.slab
      call.activity call.name with
  | .error f => .error f
  | .ok (proc, slab) =>
    match createThread supply call.cpu (call.junk 4) call.beyond slab proc.addr with
    | .error f => .error (.kernel f)
    | .ok slab => .ok (⟨proc.addr, pid⟩, { s with slab := slab })

/-- A number of calls, and the processes they create. -/
def run (supply : ℕ → PageGrant) : List CreateCall → Sched → Except NameFault (List Created × Sched)
  | [], s => .ok ([], s)
  | call :: calls, s =>
    match s.createProcessEx supply call with
    | .error f => .error f
    | .ok (proc, s) =>
      match run supply calls s with
      | .error f => .error f
      | .ok (procs, s) => .ok (proc :: procs, s)

/-- Before the first call. -/
def start (slab : SlabState) : Sched := ⟨slab, 0#16, fun _ ↦ 0⟩

end Sched

/-- The processes can be found. -/
structure ProcessesFound (procs : List Created) (s : Sched) : Prop where
  /-- Each of them is looked up by its number. -/
  found : ∀ proc ∈ procs, s.getProcessByPID (s.processId proc.addr) = proc.addr
  /-- The numbers are different. -/
  distinct : (procs.map Created.pid).Nodup
  /-- None of them is one of those for the kernel. -/
  reserved : ∀ proc ∈ procs, 255 < proc.pid.toNat

/-! ## One call -/

section Call

variable {supply : ℕ → PageGrant} {cpu : CpuIndex} {s s' : SlabState}

/-- **What is allocated is not at 0.** -/
theorem slabAllocateLoop_ne_zero {junk : Stack} {cache : CacheIndex} {page : Option ℕ}
    {fuel addr : ℕ} (hrun : slabAllocateLoop supply junk cache cpu page fuel s = .ok (addr, s')) :
    addr ≠ 0 := by
  induction fuel generalizing s with
  | zero => simp [slabAllocateLoop] at hrun
  | succ fuel ih =>
    rw [slabAllocateLoop] at hrun
    split at hrun
    · rename_i hfree
      rw [fastestPath_ok hrun]
      exact hfree
    · split at hrun
      · rename_i first _
        cases first with
        | frame first =>
          rw [fastPath] at hrun
          split at hrun
          · simp at hrun
          · split at hrun
            · exact ih hrun
            · split at hrun
              · simp at hrun
              · exact (slowestPath_ok hrun).addr_ne
            · simp at hrun
        | _ => simp [fastPath] at hrun
      · exact (slowestPath_ok hrun).addr_ne

theorem kernelAllocateObject_ne_zero {junk : Stack} {size : ℕ} {object : SlabObject}
    (hrun : kernelAllocateObject supply cpu junk s size = .ok (object, s')) : object.addr ≠ 0 := by
  rw [kernelAllocateObject] at hrun
  split at hrun
  · simp at hrun
  · rename_i cache hcache
    split at hrun
    · simp at hrun
    · rename_i addr s₁ hallocate
      rw [Except.ok.injEq, Prod.mk.injEq] at hrun
      rw [← hrun.1]
      rw [kmAllocate, hcache] at hallocate
      exact slabAllocateLoop_ne_zero hallocate

theorem createNamed_ne_zero {size : ℕ} {assign : ℕ → SlabState → Except Fault SlabState}
    {junk : ℕ → Stack} {name : List (BitVec 8)} {new : Named}
    (hrun : createNamed supply cpu size assign junk s name = .ok (new, s')) : new.addr ≠ 0 := by
  rw [createNamed] at hrun
  split at hrun
  · simp at hrun
  · rename_i object s₁ hobject
    split at hrun
    · simp at hrun
    · split at hrun
      · simp at hrun
      · split at hrun
        · simp at hrun
        · rw [Except.ok.injEq, Prod.mk.injEq] at hrun
          rw [← hrun.1]
          exact kernelAllocateObject_ne_zero hobject

theorem createProcessEx_ne_zero {assign : ℕ → SlabState → Except Fault SlabState}
    {junk : ℕ → Stack} {activity : ℕ} {name : List (BitVec 8)} {new : Named}
    (hrun : createProcessEx supply cpu assign junk s activity name = .ok (new, s')) :
    new.addr ≠ 0 := by
  rw [createProcessEx] at hrun
  split at hrun
  · simp at hrun
  · rename_i proc s₁ hproc
    have hne := createNamed_ne_zero hproc
    split at hrun
    · split at hrun
      · simp at hrun
      · rw [Except.ok.injEq, Prod.mk.injEq] at hrun
        exact hrun.1 ▸ hne
    · rw [Except.ok.injEq, Prod.mk.injEq] at hrun
      exact hrun.1 ▸ hne

end Call

namespace Sched

variable {supply : ℕ → PageGrant} {s s' : Sched}

/-- **What a call does**: the process gets the next number, and nothing is put into the list. -/
theorem createProcessEx_ok {call : CreateCall} {proc : Created}
    (hrun : s.createProcessEx supply call = .ok (proc, s')) :
    proc.addr ≠ 0 ∧ proc.pid = s.currentProcessId ∧
      s'.currentProcessId = s.currentProcessId + 1#16 ∧
      s'.processListByPid = s.processListByPid := by
  rw [createProcessEx] at hrun
  dsimp only [getNextPID] at hrun
  split at hrun
  · simp at hrun
  · rename_i named slab hnamed
    split at hrun
    · simp at hrun
    · rw [Except.ok.injEq, Prod.mk.injEq] at hrun
      obtain ⟨rfl, rfl⟩ := hrun
      exact ⟨createProcessEx_ne_zero hnamed, rfl, rfl, rfl⟩

/-! ## Call after call -/

/-- **What a number of calls do**: the numbers are given in order, and they wrap around. -/
theorem run_ok {calls : List CreateCall} {procs : List Created}
    (hrun : s.run supply calls = .ok (procs, s')) :
    procs.map Created.pid =
        (List.range calls.length).map (fun k ↦ s.currentProcessId + BitVec.ofNat 16 k) ∧
      (∀ proc ∈ procs, proc.addr ≠ 0) ∧ s'.processListByPid = s.processListByPid := by
  induction calls generalizing s procs with
  | nil =>
    rw [run, Except.ok.injEq, Prod.mk.injEq] at hrun
    obtain ⟨rfl, rfl⟩ := hrun
    exact ⟨rfl, by simp, rfl⟩
  | cons call calls ih =>
    rw [run] at hrun
    split at hrun
    · simp at hrun
    · rename_i proc s₁ hcall
      split at hrun
      · simp at hrun
      · rename_i procs₁ s₂ hrest
        rw [Except.ok.injEq, Prod.mk.injEq] at hrun
        obtain ⟨rfl, rfl⟩ := hrun
        obtain ⟨hne, hpid, hnext, hlist⟩ := createProcessEx_ok hcall
        obtain ⟨hpids, hnes, hlists⟩ := ih hrest
        refine ⟨?_, ?_, hlists.trans hlist⟩
        · rw [List.map_cons, hpid, hpids, hnext, List.length_cons, List.range_succ_eq_map,
            List.map_cons, List.map_map]
          refine congrArg₂ _ (by simp) (List.map_congr_left fun k _ ↦ ?_)
          rw [Function.comp_apply, BitVec.add_assoc, Nat.succ_eq_add_one, Nat.add_comm k,
            BitVec.ofNat_add]
        · intro proc' hproc'
          rcases List.mem_cons.mp hproc' with rfl | hproc'
          · exact hne
          · exact hnes proc' hproc'

/-- **How long the numbers are different**: for the first 65536 processes. -/
theorem pids_nodup_iff {calls : List CreateCall} {procs : List Created}
    (hrun : s.run supply calls = .ok (procs, s')) :
    (procs.map Created.pid).Nodup ↔ calls.length ≤ 2 ^ 16 := by
  rw [(run_ok hrun).1, List.nodup_map_iff_inj_on List.nodup_range]
  refine ⟨fun hinj ↦ ?_, fun hle i hi j hj heq ↦ ?_⟩
  · by_contra hlt
    -- the first number is given once more
    have := hinj 0 (List.mem_range.mpr (by omega)) (2 ^ 16) (List.mem_range.mpr (by omega)) rfl
    omega
  · rw [List.mem_range] at hi hj
    have hmod := congrArg BitVec.toNat ((BitVec.add_right_inj _).mp heq)
    rwa [BitVec.toNat_ofNat, BitVec.toNat_ofNat, Nat.mod_eq_of_lt (by omega),
      Nat.mod_eq_of_lt (by omega)] at hmod

theorem getProcessByPID_of_empty (hlist : s.processListByPid = fun _ ↦ 0) (pid : BitVec 16) :
    s.getProcessByPID pid = 0 := by
  rw [getProcessByPID, hlist, ite_self]

end Sched

/-- **No process is found.**  The list is empty, and the first number is one of those for the
kernel. -/
theorem processes_found_iff (supply : ℕ → PageGrant) (slab : SlabState) (calls : List CreateCall)
    (procs : List Created) (s : Sched)
    (hrun : (Sched.start slab).run supply calls = .ok (procs, s)) :
    ProcessesFound procs s ↔ calls = [] := by
  obtain ⟨hpids, hne, hlist⟩ := Sched.run_ok hrun
  have hlength := congrArg List.length hpids
  rw [List.length_map, List.length_map, List.length_range] at hlength
  constructor
  · intro hfound
    rcases procs with _ | ⟨proc, procs⟩
    · exact List.length_eq_zero_iff.mp hlength.symm
    · have hlookup := hfound.found proc List.mem_cons_self
      rw [Sched.getProcessByPID_of_empty hlist] at hlookup
      exact absurd hlookup.symm (hne proc List.mem_cons_self)
  · rintro rfl
    obtain rfl := List.length_eq_zero_iff.mp hlength
    exact ⟨by simp, List.nodup_nil, by simp⟩

/-- Pages without end. -/
def manyPages (i : ℕ) : PageGrant := ⟨0xFFFFFFFF80000000 + i * archPageSize, some i, id⟩

/-- A process with the name `"init"`, for an activity that there is. -/
def initCall (cpu : CpuIndex) (beyond : CacheIndex) : CreateCall :=
  ⟨cpu, fun _ ↦ emptyStack, some beyond, 0xFFFFFFFF90000000, [0x69#8, 0x6E#8, 0x69#8, 0x74#8]⟩

theorem run_initCall : ∃ s, (Sched.start emptyCaches).run manyPages [initCall 0 13] =
      .ok ([⟨0xFFFFFFFF80000000, 0#16⟩], s) ∧
    s.processId 0xFFFFFFFF80000000 = 0#16 ∧ s.getProcessByPID 0#16 = 0 := by
  have hcall : ((Sched.start emptyCaches).run manyPages [initCall 0 13]).map
      (fun r ↦ (r.1, r.2.processId 0xFFFFFFFF80000000, r.2.getProcessByPID 0#16)) =
      .ok ([⟨0xFFFFFFFF80000000, 0#16⟩], 0#16, 0) := by
    decide +kernel
  rcases hrun : (Sched.start emptyCaches).run manyPages [initCall 0 13] with f | ⟨procs, s⟩
  · simp [hrun, Except.map] at hcall
  · simp only [hrun, Except.map, Except.ok.injEq, Prod.mk.injEq] at hcall
    obtain ⟨rfl, hid, hlookup⟩ := hcall
    exact ⟨s, rfl, hid, hlookup⟩

/-- One process. -/
theorem processes_found_iff_init : ∃ s, (Sched.start emptyCaches).run manyPages [initCall 0 13] =
      .ok ([⟨0xFFFFFFFF80000000, 0#16⟩], s) ∧
    (ProcessesFound [⟨0xFFFFFFFF80000000, 0#16⟩] s ↔ [initCall 0 13] = []) := by
  obtain ⟨s, hrun, -⟩ := run_initCall
  exact ⟨s, hrun, processes_found_iff manyPages emptyCaches _ _ s hrun⟩

/-- **The first process** gets the number 0, which is one of those for the kernel, and the number
leads to no process. -/
theorem processes_found_first : (∃ s, (Sched.start emptyCaches).run manyPages [initCall 0 13] =
      .ok ([⟨0xFFFFFFFF80000000, 0#16⟩], s) ∧
      s.processId 0xFFFFFFFF80000000 = 0#16 ∧ s.getProcessByPID 0#16 = 0) ∧
    ¬ ∀ supply slab calls procs s, (Sched.start slab).run supply calls = .ok (procs, s) →
      ProcessesFound procs s := by
  refine ⟨run_initCall, fun hall ↦ ?_⟩
  obtain ⟨s, hrun, hid, hlookup⟩ := run_initCall
  have hfound := (hall _ _ _ _ s hrun).found _ List.mem_cons_self
  dsimp only at hfound
  rw [hid, hlookup] at hfound
  exact absurd hfound (by decide)

end CubikOS
