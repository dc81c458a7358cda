import JuampiOs.Heap.Model

/-!
# Parallel Lua: marshaling and dispatch

The data path of `lua_thread.c` and `smp.c`: the arguments of `thread.spawn` and `thread.parallel`
are marshaled into an array of `MAX_ARGS` values (`marshal_from`), a job for another core gets its
own copies of the bytecode and of the strings in the kernel heap (`start_worker`) and is posted to
its mailbox (`smp_run_on`), and the core that takes it pushes the values of the job as the
arguments of its function (`run_job`, `marshal_push`). The main core runs its own share of
`thread.parallel` inline, on the caller's strings.

A string is its bytes, whoever holds it: a copy in a block of its own stays what it is, since no
other block overlaps it (`Heap.run_heap_sound`). What `kmalloc` does to the heap is modelled, with
its panics. A `luaL_error` ends a call with its text.

What Lua itself allocates in a worker's state is a parameter (`Cores.heapRoom`). Left out: the
worker's result and its error text, which go the other way, the position `luaL_error` puts in
front of a text and the type `luaL_checktype` found, `lua_dump` itself (a function comes with the
string it is dumped to), and a call that the main core's own share makes: it runs in the very
state whose stack `run_job` clears.
-/

namespace JuampiOs.Parallel

open Heap (Machine Stop)

/-- `MAX_ARGS`. -/
def maxArgs : Nat := 16

/-- A value on a Lua stack. -/
inductive Value where
  | nil
  | boolean (b : Bool)
  | integer (i : Int)
  | number (bits : UInt64)
  | string (bytes : List UInt8)
  | shared (ptr size : Nat)
  /-- a function, a table, a thread or any other userdata -/
  | other
deriving DecidableEq

/-- `struct mval`. -/
inductive Mval where
  | nil
  | bool (b : Bool)
  | int (i : Int)
  | num (bits : UInt64)
  | str (bytes : List UInt8)
  | shared (ptr size : Nat)

/-- `marshal_from`. -/
def marshalFrom : Value → Option Mval
  | .nil => some .nil
  | .boolean b => some (.bool b)
  | .integer i => some (.int i)
  | .number bits => some (.num bits)
  | .string bytes => some (.str bytes)
  | .shared ptr size => some (.shared ptr size)
  | .other => none

/-- `marshal_push`. -/
def marshalPush : Mval → Value
  | .nil => .nil
  | .bool b => .boolean b
  | .int i => .integer i
  | .num bits => .number bits
  | .str bytes => .string bytes
  | .shared ptr size => .shared ptr size

/-- The part of `struct job_t` a worker runs: the bytecode and the first `nargs` values of the
array. -/
structure Job where
  code : List UInt8
  args : List Mval

/-! ## Copies in the kernel heap -/

/-- Code that uses the kernel heap, and may panic. -/
abbrev Kernel := StateT Machine (Except Stop)

/-- `(ptrdiff_t)n` for a `size_t`. -/
def ptrdiff (n : Nat) : Int := if n < 2 ^ 63 then n else n - 2 ^ 64

def kmalloc (n : Nat) : Kernel Nat := fun s => Heap.heapAlloc s (ptrdiff n) 16 1

/-- A `kmalloc` and the `memcpy` behind it: the bytes in their new block. -/
def dup (bytes : List UInt8) : Kernel (List UInt8) := do
  let _ ← kmalloc bytes.length
  pure bytes

/-- A value as a job keeps it: a string gets an owned copy. -/
def ownArg : Mval → Kernel Mval
  | .str bytes => do
    let copy ← dup bytes
    pure (.str copy)
  | a => pure a

/-- `start_worker`, up to the mailbox: the job of a core. -/
def startWorker (code : List UInt8) (args : List Mval) (core : Nat) : Kernel (Nat × Job) := do
  let code ← dup code
  let args ← (.int core :: args).mapM ownArg
  pure (core, ⟨code, args⟩)

/-! ## The cores -/

/-- What a core is doing when a job is posted to it. -/
inductive CoreState where
  /-- it never came up -/
  | offline
  /-- it is in the loop of `ap_main` -/
  | polling
  /-- it is running a job -/
  | running
deriving DecidableEq

/-- The cores, and the Lua states of their workers. -/
structure Cores where
  nworkers : Nat
  bsp : Nat
  /-- `jobs[c].busy` -/
  busy : Nat → Bool
  state : Nat → CoreState
  /-- whether the private heap of the core's Lua state takes a chunk and the values -/
  heapRoom : Nat → List UInt8 → List Value → Bool

/-- `run_job`, up to the call: what the function is called with. `worker_alloc` panics when its
heap is used up. -/
def runJob (cores : Cores) (c : Nat) (j : Job) : Except Stop (List Value) :=
  let pushed := j.args.map marshalPush
  if cores.heapRoom c j.code pushed then pure pushed else throw .outOfMemory

/-- `smp_run_on`, and what `ap_main` makes of the post: what the function is called with, `none` if
it never is. -/
def smpRunOn (cores : Cores) (c : Nat) (j : Job) : Except Stop (Option (List Value)) :=
  match cores.state c with
  | .polling => some <$> runJob cores c j
  -- the end of the job in flight stores `CPU_MBOX_DONE` over the post
  | .running => pure none
  | .offline => pure none

/-- A core and its job: the main core runs its own share inline, any other is posted to. -/
def turn (cores : Cores) (cj : Nat × Job) : Except Stop (Nat × Option (List Value)) :=
  if cj.1 = cores.bsp then do
    let vs ← runJob cores cj.1 cj.2
    pure (cj.1, some vs)
  else do
    let vs ← smpRunOn cores cj.1 cj.2
    pure (cj.1, vs)

/-! ## The calls -/

/-- A Lua function: the names of its upvalues and the string `lua_dump` makes of it, unless it
cannot be dumped. A dump starts with its signature. -/
structure Fn where
  upvalues : List String
  dump : Option (List UInt8)
  dump_ne : ∀ c ∈ dump, c ≠ []

/-- The loop that marshals the arguments from the `pos`-th on into an array with `room` left. -/
def marshalArgs (name : String) : (room pos : Nat) → List Value → Except String (List Mval)
  | 0, _, _ => pure []
  | _ + 1, _, [] => pure []
  | room + 1, pos, v :: vs =>
    match marshalFrom v with
    | none => throw s!"thread.{name}: argument {pos} has an unsupported type"
    | some a => do
      let as ← marshalArgs name room (pos + 1) vs
      pure (a :: as)

/-- `require_bsp`, the types of the first two arguments and the checks of `thread.spawn` on the
core; `core` is none if the argument is no integer. -/
def checkSpawn (cores : Cores) (main : Bool) (core : Option Int) (fn : Option Fn) :
    Except String (Nat × Fn) :=
  if main = false then throw "thread dispatch is only allowed from the main core"
  else
    match core, fn with
    | none, _ => throw "bad argument #1 to 'spawn' (number expected)"
    | some _, none => throw "bad argument #2 to 'spawn' (function expected)"
    | some core, some fn =>
      -- `(int)core`, as the texts show it
      let shown := core.bmod (2 ^ 32)
      if core < 0 ∨ (cores.nworkers : Int) ≤ core ∨ core.toNat % 2 ^ 32 = cores.bsp then
        throw s!"thread.spawn: core {shown} is not an application processor"
      else if cores.busy core.toNat = true then
        throw s!"thread.spawn: core {shown} already has a job"
      else pure (core.toNat, fn)

/-- `require_bsp` and the type of the first argument of `thread.parallel`. -/
def checkParallel (main : Bool) (fn : Option Fn) : Except String Fn :=
  if main = false then throw "thread dispatch is only allowed from the main core"
  else
    match fn with
    | none => throw "bad argument #1 to 'parallel' (function expected)"
    | some fn => pure fn

/-- `check_no_upvalues` and `dump_fn`. -/
def checkFn (fn : Fn) : Except String (List UInt8) :=
  match fn.upvalues.find? (· ≠ "_ENV") with
  | some name =>
    throw s!"thread: function captures upvalue '{name}'; pass data as arguments instead"
  | none =>
    match fn.dump with
    | none => throw "thread: cannot serialize function"
    | some code => pure code

/-- What a call that raises no error does: the bytecode and the marshaled arguments, the application
processors that get a job, and the core that runs its share inline. -/
structure Plan where
  code : List UInt8
  args : List Mval
  aps : List Nat
  own : List Nat

/-- The steps `l_spawn` and `l_parallel` share: the function is dumped and the arguments are
marshaled. -/
def prepare (name : String) (fn : Fn) (args : List Value) (aps own : List Nat) :
    Except String Plan := do
  let code ← checkFn fn
  let args ← marshalArgs name (maxArgs - 1) 1 args
  pure ⟨code, args, aps, own⟩

/-- The cores of a plan, and what the function of each is called with. -/
abbrev Calls := List (Nat × Option (List Value))

/-- The jobs of the application processors, posted to them, and the share that is run inline, which
borrows the bytecode and the strings. -/
def serve (cores : Cores) (p : Plan) : Kernel Calls := do
  let jobs ← p.aps.mapM (startWorker p.code p.args)
  let inline := p.own.map fun (c : Nat) => (c, (⟨p.code, .int c :: p.args⟩ : Job))
  ((jobs ++ inline).mapM (turn cores) : Except Stop Calls)

/-- `l_spawn`, up to the first `start_worker`. -/
def lSpawn (cores : Cores) (main : Bool) (core : Option Int) (fn : Option Fn) (args : List Value) :
    Except String Plan := do
  let (core, fn) ← checkSpawn cores main core fn
  prepare "spawn" fn args [core] []

/-- The application processors `thread.parallel` dispatches to. -/
def Cores.others (cores : Cores) : List Nat :=
  (List.range cores.nworkers).filter (· ≠ cores.bsp)

/-- `l_parallel`, up to the first `start_worker`. -/
def lParallel (cores : Cores) (main : Bool) (fn : Option Fn) (args : List Value) :
    Except String Plan := do
  let fn ← checkParallel main fn
  prepare "parallel" fn args cores.others [cores.bsp]

inductive ThreadCall where
  | spawn (core : Option Int) (fn : Option Fn) (args : List Value)
  | parallel (fn : Option Fn) (args : List Value)

namespace ThreadCall

def args : ThreadCall → List Value
  | spawn _ _ args => args
  | parallel _ args => args

/-- The call, made on the main core or on another: the text of a Lua error, or what it goes on to
do. -/
def plan (cores : Cores) (main : Bool) : ThreadCall → Except String Plan
  | spawn core fn args => lSpawn cores main core fn args
  | parallel fn args => lParallel cores main fn args

end ThreadCall

end JuampiOs.Parallel
