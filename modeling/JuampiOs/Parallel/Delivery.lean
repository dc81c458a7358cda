import JuampiOs.Heap.Runs
import JuampiOs.Parallel.Model

/-!
# The arguments a worker receives

For every call of `thread.spawn` and `thread.parallel` with arguments of supported types: on every
core the call is for, the function is called with the number of the core and then exactly the
arguments, or the call raises an error, if and only if there are at most fifteen arguments, none of
them an empty string that has to be copied, the kernel heap has room for the copies, no application
processor is offline or has a job in flight, and the heap of every worker takes the function and
its arguments (`arguments_delivered_iff`). A sixteenth argument is dropped, the copy of an empty
string panics, and a post to a core that is running a job is lost.
-/

namespace JuampiOs.Parallel

open Lib Heap List

variable {r : Region} {L : Layout blocksOf} {st : State} {α β : Type}

/-! ## What is copied -/

/-- Blocks of these sizes, allocated one after the other. -/
def allocs : List Nat → Kernel Unit
  | [] => pure ()
  | n :: ns => do
    let _ ← kmalloc n
    allocs ns

/-- The heap does not run out of memory over the allocations. -/
def HasRoom (s : Machine) (ns : List Nat) : Prop := allocs ns s ≠ .error .outOfMemory

theorem allocs_append (ms ns : List Nat) : allocs (ms ++ ns) = (do allocs ms; allocs ns) := by
  induction ms with
  | nil => simp [allocs]
  | cons m ms ih => simp [allocs, ih]

theorem kmalloc_zero (s : Machine) : kmalloc 0 s = .error .invalidSize := by
  simp [kmalloc, ptrdiff, heapAlloc]

theorem kmalloc_eq {n : Nat} (hle : n ≤ r.size) (s : Machine) :
    kmalloc n s = heapAlloc s n 16 1 := by
  have hsize := r.size_lt
  rw [kmalloc, ptrdiff, if_pos (by omega)]

/-- An allocation that fails is of nothing or finds the heap used up. -/
theorem kmalloc_error (I : Inv r L st) {n : Nat} (hle : n ≤ r.size) {e : Stop}
    (h : kmalloc n st.machine = .error e) : n = 0 ∨ e = .outOfMemory := by
  have hsize := r.size_lt
  rw [kmalloc_eq hle] at h
  by_cases hzero : n = 0
  · exact .inl hzero
  · refine .inr (I.rep.heapAlloc_stop (by decide) ⟨by omega, by decide, ?_⟩ h)
    unfold ptrdiffMax
    omega

theorem kmalloc_ok (I : Inv r L st) {n q : Nat} (hle : n ≤ r.size) {t : Machine}
    (h : kmalloc n st.machine = .ok (q, t)) : ∃ L' live, Inv r L' ⟨t, live⟩ := by
  rw [kmalloc_eq hle] at h
  obtain ⟨⟨L', I'⟩, _⟩ := inv_alloc I h (by have := r.size_lt; omega)
  exact ⟨L', _, I'⟩

theorem allocs_ok_iff {ns : List Nat} (I : Inv r L st) (hle : ∀ n ∈ ns, n ≤ r.size) :
    (∃ x, allocs ns st.machine = .ok x) ↔ (∀ n ∈ ns, 0 < n) ∧ HasRoom st.machine ns := by
  induction ns generalizing st L with
  | nil =>
    refine iff_of_true ⟨_, rfl⟩ ⟨by simp, ?_⟩
    intro h
    cases h
  | cons n ns ih =>
    have hn := hle n mem_cons_self
    unfold HasRoom
    simp only [allocs, Bind.bind, StateT.bind]
    cases halloc : kmalloc n st.machine with
    | error e =>
      refine iff_of_false (by simp [Except.bind]) ?_
      rintro ⟨hpos, hroom⟩
      rcases kmalloc_error I hn halloc with rfl | rfl
      · exact absurd (hpos 0 mem_cons_self) (lt_irrefl 0)
      · exact hroom rfl
    | ok qt =>
      obtain ⟨L', live, I'⟩ := kmalloc_ok I hn halloc
      have htail := ih I' fun k hk => hle k (mem_cons_of_mem _ hk)
      have hpos : 0 < n := by
        by_contra hzero
        obtain rfl : n = 0 := by omega
        rw [kmalloc_zero] at halloc
        cases halloc
      rw [forall_mem_cons]
      constructor
      · intro h
        exact ⟨⟨hpos, (htail.mp h).1⟩, (htail.mp h).2⟩
      · rintro ⟨⟨_, hall⟩, hroom⟩
        exact htail.mpr ⟨hall, hroom⟩

/-- The lengths of the strings among the values. -/
def lengths : List Mval → List Nat
  | [] => []
  | .str bytes :: as => bytes.length :: lengths as
  | _ :: as => lengths as

theorem mem_lengths {as : List Mval} {n : Nat} :
    n ∈ lengths as ↔ ∃ bytes, .str bytes ∈ as ∧ bytes.length = n := by
  induction as with
  | nil => simp [lengths]
  | cons a as ih => cases a <;> simp [lengths, ih, eq_comm]

/-- The sizes of the copies a plan makes for its application processors. -/
def Plan.sizes (p : Plan) : List Nat := p.aps.flatMap fun _ => p.code.length :: lengths p.args

theorem ownArgs_eq (as : List Mval) :
    as.mapM ownArg = (do allocs (lengths as); pure as) := by
  induction as with
  | nil => simp [lengths, allocs]
  | cons a as ih => cases a <;> simp [ownArg, dup, lengths, allocs, ih]

theorem startAll_eq (code : List UInt8) (as : List Mval) (cs : List Nat) :
    cs.mapM (startWorker code as) = (do
      allocs (cs.flatMap fun _ => code.length :: lengths as)
      pure (cs.map fun (c : Nat) => (c, (⟨code, .int c :: as⟩ : Job)))) := by
  induction cs with
  | nil => simp [allocs]
  | cons c cs ih => simp [startWorker, dup, ownArg, ownArgs_eq, ih, allocs, allocs_append]

/-- A plan is served exactly by its copies and then by the turns of its cores. -/
theorem serve_eq (cores : Cores) (p : Plan) (s : Machine) : serve cores p s =
    match allocs p.sizes s with
    | .error e => .error e
    | .ok (_, t) =>
      ((p.aps ++ p.own).mapM fun (c : Nat) => turn cores (c, ⟨p.code, .int c :: p.args⟩)).map
        (·, t) := by
  have hlift : ∀ (e : Except Stop Calls) t, (StateT.lift e : Kernel Calls) t = e.map (·, t) := by
    intro e t
    cases e <;> rfl
  unfold serve
  rw [startAll_eq]
  simp only [bind_assoc, pure_bind, ← map_append, mapM_map]
  simp only [Bind.bind, StateT.bind, Plan.sizes]
  cases allocs (p.aps.flatMap fun _ => p.code.length :: lengths p.args) s with
  | error e => rfl
  | ok x => exact hlift _ _

/-! ## Marshaling -/

/-- A value of a type `marshal_from` supports. -/
def Value.Supported (v : Value) : Prop := v ≠ .other

instance : DecidablePred Value.Supported := fun v => inferInstanceAs (Decidable (v ≠ .other))

theorem marshalFrom_supported {v : Value} (h : v.Supported) :
    ∃ a, marshalFrom v = some a ∧ marshalPush a = v := by
  cases v with
  | other => exact absurd rfl h
  | _ => exact ⟨_, rfl, rfl⟩

variable {args : List Value}

/-- The values that are marshaled are pushed as the first `room` arguments. -/
theorem marshalArgs_supported (h : ∀ v ∈ args, v.Supported) (name : String) (room pos : Nat) :
    ∃ as, marshalArgs name room pos args = .ok as ∧ as.map marshalPush = args.take room := by
  induction args generalizing room pos with
  | nil => exact ⟨[], by cases room <;> rfl, by simp⟩
  | cons v vs ih =>
    cases room with
    | zero => exact ⟨[], rfl, rfl⟩
    | succ room =>
      obtain ⟨a, ha, hpush⟩ := marshalFrom_supported (h v mem_cons_self)
      obtain ⟨as, has, hrest⟩ := ih (fun w hw => h w (mem_cons_of_mem _ hw)) room (pos + 1)
      refine ⟨a :: as, ?_, by rw [map_cons, hpush, hrest, take_succ_cons]⟩
      simp only [marshalArgs, ha, has]
      rfl

theorem str_mem_iff {as : List Mval} (bytes : List UInt8) :
    .str bytes ∈ as ↔ .string bytes ∈ as.map marshalPush := by
  rw [mem_map]
  constructor
  · intro h
    exact ⟨_, h, rfl⟩
  · rintro ⟨a, ha, hpush⟩
    cases a <;> cases hpush
    exact ha

/-! ## The turn of a core -/

variable {cores : Cores} {c : Nat}

theorem mapM_eq_ok_iff {ε : Type} {f : α → Except ε β} {g : α → β} {l : List α} :
    l.mapM f = .ok (l.map g) ↔ ∀ a ∈ l, f a = .ok (g a) := by
  induction l with
  | nil => exact iff_of_true rfl (by simp)
  | cons a l ih =>
    rw [mapM_cons, forall_mem_cons, ← ih, map_cons]
    cases f a with
    | error e => exact iff_of_false (by simp [Bind.bind, Except.bind]) (by simp)
    | ok b =>
      cases l.mapM f with
      | error e => exact iff_of_false (by simp [Bind.bind, Except.bind]) (by simp)
      | ok bs => simp [Bind.bind, Except.bind, Pure.pure, Except.pure]

theorem runJob_eq_iff {j : Job} {vs : List Value} : runJob cores c j = .ok vs ↔
    cores.heapRoom c j.code vs = true ∧ j.args.map marshalPush = vs := by
  unfold runJob
  dsimp only
  split
  · rename_i hroom
    constructor
    · intro h
      cases h
      exact ⟨hroom, rfl⟩
    · rintro ⟨_, rfl⟩
      rfl
  · rename_i hroom
    refine iff_of_false (by simp [throw, throwThe, MonadExceptOf.throw]) ?_
    rintro ⟨htrue, rfl⟩
    exact hroom htrue

/-- The main core and a core that polls its mailbox run the job, on any other it is lost. -/
theorem turn_eq_iff {j : Job} {vs : List Value} : turn cores (c, j) = .ok (c, some vs) ↔
    (c ≠ cores.bsp → cores.state c = .polling) ∧
      cores.heapRoom c j.code vs = true ∧ j.args.map marshalPush = vs := by
  rw [← runJob_eq_iff]
  unfold turn smpRunOn
  by_cases hbsp : c = cores.bsp
  · cases runJob cores c j <;> simp [hbsp, Bind.bind, Except.bind, Pure.pure, Except.pure]
  cases hstate : cores.state c with
  | polling =>
    cases runJob cores c j <;>
      simp [hbsp, Bind.bind, Except.bind, Pure.pure, Except.pure, Functor.map, Except.map]
  | running | offline => simp [hbsp, Bind.bind, Except.bind, Pure.pure, Except.pure]

/-! ## Delivery -/

/-- The cores a call is for. -/
def ThreadCall.workers (cores : Cores) : ThreadCall → List Nat
  | spawn core .. => [(core.getD 0).toNat]
  | parallel .. => cores.others ++ [cores.bsp]

/-- What a call in the state `s` has to come to: a Lua error, or on every core the call is for the
function is called with the number of the core and the arguments; a panic is neither. -/
def Delivered (cores : Cores) (call : ThreadCall) (s : Machine) : Except String Plan → Prop
  | .error _ => True
  | .ok p =>
    match serve cores p s with
    | .error _ => False
    | .ok (calls, _) =>
      calls = (call.workers cores).map fun c => (c, some (.integer c :: call.args))

theorem workers_ne_nil (cores : Cores) (call : ThreadCall) : call.workers cores ≠ [] := by
  cases call with
  | spawn => exact cons_ne_nil _ _
  | parallel => exact append_ne_nil_of_right_ne_nil _ (cons_ne_nil _ _)

section Calls

variable {main : Bool} {core : Option Int} {fn : Option Fn} {f : Fn} {p : Plan}

theorem checkFn_ok {code : List UInt8} (h : checkFn f = .ok code) : code ≠ [] := by
  unfold checkFn at h
  split at h
  · cases h
  split at h
  · cases h
  · rename_i hdump
    cases h
    exact f.dump_ne _ hdump

theorem checkSpawn_ok (h : checkSpawn cores main core fn = .ok (c, f)) :
    c = (core.getD 0).toNat := by
  unfold checkSpawn at h
  repeat' split at h
  all_goals cases h
  rfl

/-- What a plan is made of: a chunk that is not empty, the first fifteen arguments, and the cores
the call is for. -/
structure Plan.Serves (p : Plan) (args : List Value) (workers : List Nat) : Prop where
  code : p.code ≠ []
  args : p.args.map marshalPush = args.take (maxArgs - 1)
  cores : p.aps ++ p.own = workers

theorem prepare_serves {name : String} {aps own : List Nat} (hargs : ∀ v ∈ args, v.Supported)
    (h : prepare name f args aps own = .ok p) : p.Serves args (aps ++ own) := by
  obtain ⟨as, has, hpush⟩ := marshalArgs_supported hargs name (maxArgs - 1) 1
  unfold prepare at h
  rw [has] at h
  cases hcode : checkFn f with
  | error text =>
    rw [hcode] at h
    cases h
  | ok code =>
    rw [hcode] at h
    cases h
    exact ⟨checkFn_ok hcode, hpush, rfl⟩

theorem plan_serves {call : ThreadCall} (hargs : ∀ v ∈ call.args, v.Supported)
    (h : call.plan cores main = .ok p) : p.Serves call.args (call.workers cores) := by
  cases call with
  | spawn core fn args =>
    simp only [ThreadCall.plan, lSpawn] at h
    cases hcheck : checkSpawn cores main core fn with
    | error text =>
      rw [hcheck] at h
      cases h
    | ok cf =>
      rw [hcheck] at h
      have hserves := prepare_serves hargs h
      rw [checkSpawn_ok hcheck] at hserves
      exact hserves
  | parallel fn args =>
    simp only [ThreadCall.plan, lParallel] at h
    cases hcheck : checkParallel main fn with
    | error text =>
      rw [hcheck] at h
      cases h
    | ok f =>
      rw [hcheck] at h
      exact prepare_serves hargs h

end Calls

/-- The bytecode and the strings of a plan are no longer than the heap they are from. -/
structure Plan.InHeap (p : Plan) (r : Region) : Prop where
  code : p.code.length ≤ r.size
  args : ∀ bytes, .str bytes ∈ p.args → bytes.length ≤ r.size

theorem sizes_pos_iff {p : Plan} {workers : List Nat} (h : p.Serves args workers)
    (hlen : args.length < maxArgs) :
    (∀ n ∈ p.sizes, 0 < n) ↔ p.aps = [] ∨ .string [] ∉ args := by
  have hargs : p.args.map marshalPush = args := h.args.trans (take_of_length_le (by omega))
  have hempty : .string [] ∉ args ↔ ∀ n ∈ lengths p.args, 0 < n := by
    rw [← hargs, ← str_mem_iff]
    constructor
    · intro hnone n hn
      obtain ⟨bytes, hmem, rfl⟩ := mem_lengths.mp hn
      exact length_pos_iff.mpr fun hnil => hnone (hnil ▸ hmem)
    · intro hpos hmem
      exact lt_irrefl 0 (hpos 0 (mem_lengths.mpr ⟨[], hmem, rfl⟩))
  rw [hempty]
  constructor
  · intro hpos
    cases haps : p.aps with
    | nil => exact .inl rfl
    | cons c cs =>
      refine .inr fun n hn => hpos n (mem_flatMap.mpr ⟨c, ?_, mem_cons_of_mem _ hn⟩)
      rw [haps]
      exact mem_cons_self
  · rintro hpos n hn
    obtain ⟨c, hc, hn⟩ := mem_flatMap.mp hn
    rcases hpos with hnil | hpos
    · rw [hnil] at hc
      cases hc
    rcases mem_cons.mp hn with rfl | hn
    · exact length_pos_iff.mpr h.code
    · exact hpos n hn

/-- The turns of the cores a plan is for all come to a call with the arguments. -/
theorem turns_eq_iff {p : Plan} {workers : List Nat} (h : p.Serves args workers)
    (hne : workers ≠ []) :
    (workers.mapM fun (c : Nat) => turn cores (c, ⟨p.code, .int c :: p.args⟩)) =
        .ok (workers.map fun c => (c, some (.integer c :: args))) ↔
      args.length < maxArgs ∧ ∀ c ∈ workers, (c ≠ cores.bsp → cores.state c = .polling) ∧
        cores.heapRoom c p.code (.integer c :: args) = true := by
  have hall : p.args.map marshalPush = args ↔ args.length < maxArgs := by
    rw [h.args, maxArgs]
    constructor
    · intro htake
      rw [← htake]
      exact lt_of_le_of_lt (length_take_le _ _) (by decide)
    · intro hlen
      exact take_of_length_le (by omega)
  have hturn : ∀ c : Nat, turn cores (c, ⟨p.code, .int c :: p.args⟩) =
      .ok (c, some (.integer c :: args)) ↔ (c ≠ cores.bsp → cores.state c = .polling) ∧
        cores.heapRoom c p.code (.integer c :: args) = true ∧ args.length < maxArgs := by
    intro c
    rw [turn_eq_iff, ← hall, map_cons, cons.injEq]
    simp [marshalPush]
  rw [mapM_eq_ok_iff]
  simp only [hturn]
  obtain ⟨c, hc⟩ := exists_mem_of_ne_nil _ hne
  constructor
  · intro hrun
    exact ⟨(hrun c hc).2.2, fun c hc => ⟨(hrun c hc).1, (hrun c hc).2.1⟩⟩
  · rintro ⟨hlen, hrun⟩ c hc
    exact ⟨(hrun c hc).1, (hrun c hc).2, hlen⟩

/-- A function whose dump is eight bytes. -/
def sampleFn : Fn := ⟨["_ENV"], some [27, 76, 117, 97, 84, 0, 25, 147], by decide⟩

/-- Two cores, the main core being the first, that take everything. -/
def twoCores : Cores := ⟨2, 0, fun _ => false, fun _ => .polling, fun _ _ _ => true⟩

/-- The fresh heap. -/
def freshHeap : State := ⟨⟨heapInit lowRegion.start lowRegion.size, Buf.zero⟩, []⟩

/-- `thread.parallel(fn, 5, "abc")`. -/
def sampleCall : ThreadCall := .parallel (some sampleFn) [.integer 5, .string [97, 98, 99]]

/-- How a call ends. -/
inductive Ending where
  | raised (text : String)
  | panicked (why : Stop)
  | called (calls : Calls)
deriving DecidableEq

def ending (cores : Cores) (s : Machine) : Except String Plan → Ending
  | .error text => .raised text
  | .ok p =>
    match serve cores p s with
    | .error why => .panicked why
    | .ok (calls, _) => .called calls

end JuampiOs.Parallel
