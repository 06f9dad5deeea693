import KestrelOS.Lib.Machine
import KestrelOS.Lib.StProg
import KestrelOS.Lib.Text

/-!
# The service supervisor

`apps/init.c`: units, how they are started, reaped, stopped and reloaded. The kernel's part is a
log of processes; the outcome of every system call, and which processes exit before it returns,
comes from an environment that may answer anything. Pids are never used twice.
-/

namespace KestrelOS.Supervisor

inductive Kind
  | sysinit | service | respawn | once
  deriving DecidableEq, Repr

inductive UnitState
  | stopped | starting | running | waiting | exited | failed | disabled
  deriving DecidableEq, Repr

inductive Restart
  | never | onFailure | always
  deriving DecidableEq, Repr

structure Config where
  exec : List UInt8
  after : List UInt8
  requires : List UInt8
  ready : List UInt8
  respawn : Restart
  startTimeoutMs : Nat
  deriving DecidableEq, Repr

structure SvcUnit where
  name : List UInt8
  kind : Kind
  config : Config
  enabled : Bool
  state : UnitState
  pid : Nat
  restarts : Nat
  exitCode : Int
  fails : Nat
  winOpen : Bool
  backoff : Nat
  stopping : Bool
  restartPending : Bool
  dependencyFailed : Bool
  startGuard : Bool
  seq : Nat
  order : Option Nat
  winStart : Nat
  nextStart : Nat
  startMs : Nat

def SvcUnit.become (u : SvcUnit) (state : UnitState) : SvcUnit := { u with state := state }

/-- A process of init, newest first in the log. -/
inductive ProcEvent
  | spawned (unit pid : Nat)
  | exited (pid : Nat)
  | collected (pid : Nat)
  /-- A SIGTERM that init sent. -/
  | signalled (pid : Nat)
  deriving DecidableEq, Repr

/-- The environment's answer to one system call: the milliseconds it took, whether `stat_` found
what it looked for, the pid of a spawn counted from the first unused one, the code of an exit, and
the processes that exited meanwhile. -/
structure Reply where
  gap : Nat
  ok : Bool
  pid : Option Nat
  code : Int
  exits : List Nat

structure Init where
  unit : Nat → SvcUnit
  nunits : Nat
  seqCounter : Nat
  time : Nat
  calls : Nat
  nextPid : Nat
  log : List ProcEvent

def FAIL_WINDOW_MS : Nat := 30000
def FAIL_MAX : Nat := 5
def SETTLED_MS : Nat := 1000
def MAX_DEPS : Nat := 8

def backoffMs : Nat → Nat
  | 0 => 0
  | 1 => 1000
  | 2 => 2000
  | _ => 5000

def alive (log : List ProcEvent) (pid : Nat) : Bool :=
  (log.any fun e => match e with | .spawned _ p => p = pid | _ => false) ∧ .exited pid ∉ log

def noteExit (log : List ProcEvent) (pid : Nat) : List ProcEvent :=
  if alive log pid then .exited pid :: log else log

open StProg

variable (env : Nat → Reply)

def sys : StProg Init Reply := fun s =>
  (env s.calls, { s with
    time := s.time + (env s.calls).gap
    calls := s.calls + 1
    log := (env s.calls).exits.foldl noteExit s.log })

def uptimeMs : StProg Init Nat := do
  let _ ← sys env
  let s ← get
  pure s.time

def stat : StProg Init Bool := do
  let r ← sys env
  pure r.ok

def sleepMs (ms : Nat) : StProg Init Unit := do
  let _ ← sys env
  modify fun s => { s with time := s.time + ms }

def spawn (i : Nat) : StProg Init (Option Nat) := do
  let r ← sys env
  match r.pid with
  | none => pure none
  | some d =>
    let s ← get
    let pid := s.nextPid + d
    modify fun s => { s with nextPid := pid + 1, log := .spawned i pid :: s.log }
    pure (some pid)

def pidAlive (pid : Nat) : StProg Init Bool := do
  let _ ← sys env
  let s ← get
  pure (alive s.log pid)

/-- `waitpid` blocks until the process has exited. -/
def waitpid (pid : Nat) : StProg Init Int := do
  let r ← sys env
  modify fun s => { s with log := .collected pid :: noteExit s.log pid }
  pure r.code

/-- `SYS_KILL` with SIGTERM. -/
def kill (pid : Nat) : StProg Init Unit := do
  let _ ← sys env
  modify fun s => { s with log := .signalled pid :: s.log }

def setUnit (i : Nat) (f : SvcUnit → SvcUnit) : StProg Init Unit :=
  modify fun s => { s with unit := Function.update s.unit i (f (s.unit i)) }

def each (f : Nat → StProg Init Unit) : List Nat → StProg Init Unit
  | [] => pure ()
  | i :: is => do
    f i
    each f is

def splitDeps (spec : List UInt8) : List (List UInt8) :=
  (splitOn (fun c => c = 32 ∨ c = 9 ∨ c = 44) [] spec).take MAX_DEPS

def findUnit (s : Init) (name : List UInt8) : Option Nat :=
  (List.range s.nunits).find? fun i => (s.unit i).name = name

def unitRequires (u : SvcUnit) (name : List UInt8) : Bool := name ∈ splitDeps u.config.requires

/-- `deps_placed` over the dependencies left: a hard requirement that is no other service fails the
unit. -/
def depsPlaced (i : Nat) (required : Bool) : List (List UInt8) → StProg Init Bool
  | [] => pure true
  | dep :: deps => do
    let s ← get
    match findUnit s dep with
    | none => do
      if required then setUnit i (·.become .failed)
      depsPlaced i required deps
    | some d =>
      if d = i ∨ (s.unit d).kind ≠ .service then do
        if required then setUnit i (·.become .failed)
        depsPlaced i required deps
      else if (s.unit d).order = none then pure false
      else depsPlaced i required deps

/-- One turn of the inner loop: the new `placed`. -/
def placeUnit (i placed : Nat) : StProg Init Nat := do
  let s ← get
  if (s.unit i).kind ≠ .service ∨ (s.unit i).order ≠ none then pure placed
  else if ← depsPlaced i false (splitDeps (s.unit i).config.after) then do
    if ← depsPlaced i true (splitDeps (s.unit i).config.requires) then do
      setUnit i fun u => { u with order := some placed }
      pure (placed + 1)
    else pure placed
  else pure placed

def placePass : List Nat → Nat → StProg Init Nat
  | [], placed => pure placed
  | i :: is, placed => do
    let placed ← placeUnit i placed
    placePass is placed

/-- A pass that places nothing is the last one, so there is one pass for each unit at most. -/
def placeLoop : Nat → Nat → StProg Init Nat
  | 0, placed => pure placed
  | fuel + 1, placed => do
    let s ← get
    let placed' ← placePass (List.range s.nunits) placed
    if placed' = placed then pure placed' else placeLoop fuel placed'

def failUnplaced : List Nat → Nat → StProg Init Unit
  | [], _ => pure ()
  | i :: is, placed => do
    let s ← get
    if (s.unit i).kind = .service ∧ (s.unit i).order = none then do
      setUnit i fun u => { u with state := .failed, order := some placed }
      failUnplaced is (placed + 1)
    else failUnplaced is placed

def SvcUnit.unordered (u : SvcUnit) : SvcUnit :=
  if u.kind = .service then { u with order := none } else u

def orderServices : StProg Init Unit := do
  let s ← get
  each (fun i => setUnit i .unordered) (List.range s.nunits)
  let placed ← placeLoop (s.nunits + 1) 0
  failUnplaced (List.range s.nunits) placed

def requirementSatisfied (u : SvcUnit) : Bool :=
  u.state = .running ∨ (u.state = .exited ∧ u.exitCode = 0 ∧ u.config.respawn = .never)

/-- A unit whose process has been collected, and which is down for good. -/
def SvcUnit.lost (code : Int) (u : SvcUnit) : SvcUnit :=
  { u with exitCode := code, pid := 0, state := .failed }

/-- The readiness loop of `unit_spawn`: whether it ended before the deadline. A turn sleeps 50 ms,
so `fuel` turns reach a deadline that many times 50 ms away. -/
def readyLoop (i pid deadline : Nat) : Nat → StProg Init Bool
  | 0 => pure false
  | fuel + 1 => do
    let now ← uptimeMs env
    if now < deadline then do
      if ← stat env then do
        setUnit i (·.become .running)
        pure true
      else if ← pidAlive env pid then do
        sleepMs env 50
        readyLoop i pid deadline fuel
      else do
        let code ← waitpid env pid
        setUnit i (.lost code)
        pure true
    else pure false

def termLoop (pid : Nat) : Nat → StProg Init Unit
  | 0 => pure ()
  | fuel + 1 => do
    if ← pidAlive env pid then do
      sleepMs env 10
      termLoop pid fuel
    else pure ()

def awaitReady (i pid : Nat) : StProg Init Unit := do
  let now ← uptimeMs env
  let s ← get
  let timeout := (s.unit i).config.startTimeoutMs
  if ← readyLoop env i pid (now + timeout) (timeout / 50 + 1) then pure ()
  else do
    kill env pid
    termLoop env pid 20
    let code ← waitpid env pid
    setUnit i (.lost code)

def SvcUnit.cleared (u : SvcUnit) : SvcUnit :=
  { u with nextStart := 0, stopping := false, restartPending := false, dependencyFailed := false }

/-- The unit's process is there; `seq` is the unit's place in the start order if it has none. -/
def SvcUnit.launched (pid now seq : Nat) (u : SvcUnit) : SvcUnit :=
  { u with
    pid := pid
    state := if u.config.ready = [] then .running else .starting
    startMs := now
    seq := if u.seq = 0 then seq else u.seq }

def launch (i pid : Nat) : StProg Init Unit := do
  let now ← uptimeMs env
  modify fun s => { s with seqCounter := s.seqCounter + if (s.unit i).seq = 0 then 1 else 0 }
  let s ← get
  setUnit i (.launched pid now s.seqCounter)
  if (s.unit i).config.ready = [] then pure () else awaitReady env i pid

def executable (i : Nat) : StProg Init Bool := do
  let s ← get
  if (s.unit i).config.exec = [] then pure false else stat env

def unitSpawn (i : Nat) : StProg Init Unit := do
  setUnit i .cleared
  let s ← get
  if (s.unit i).enabled then do
    if ← executable env i then do
      match ← spawn env i with
      | none => setUnit i (·.become .failed)
      | some pid => launch env i pid
    else setUnit i (·.become .failed)
  else setUnit i (·.become .disabled)

def SvcUnit.pulled (u : SvcUnit) : SvcUnit :=
  if u.state = .disabled then { u with enabled := true } else u

def SvcUnit.guard (on : Bool) (u : SvcUnit) : SvcUnit := { u with startGuard := on }

/-- `ensure_requirements` over the requirements left; `start` is `unit_start`. -/
def ensureRequirements (start : Nat → StProg Init Unit) (i : Nat) :
    List (List UInt8) → StProg Init Bool
  | [] => pure true
  | dep :: deps => do
    let s ← get
    match findUnit s dep with
    | none => pure false
    | some d =>
      if d = i ∨ (s.unit d).kind ≠ .service ∨ (s.unit d).state = .failed then pure false
      else do
        setUnit d .pulled
        if requirementSatisfied (s.unit d) then ensureRequirements start i deps
        else do
          start d
          let s ← get
          if requirementSatisfied (s.unit d) then ensureRequirements start i deps else pure false

def SvcUnit.requirements (u : SvcUnit) : List (List UInt8) :=
  if u.kind = .service then splitDeps u.config.requires else []

def SvcUnit.Up (u : SvcUnit) : Prop := u.state = .running ∨ u.state = .starting

instance (u : SvcUnit) : Decidable u.Up := inferInstanceAs (Decidable (_ ∨ _))

/-- `unit_start`. The guard stops the recursion at a unit that is being started already, so it goes
no deeper than there are units. -/
def unitStart : Nat → Nat → StProg Init Unit
  | 0, _ => pure ()
  | depth + 1, i => do
    let s ← get
    if (s.unit i).Up then pure ()
    else if (s.unit i).startGuard then setUnit i (·.become .failed)
    else do
      setUnit i (.guard true)
      if ← ensureRequirements (unitStart depth) i (s.unit i).requirements then unitSpawn env i
      else setUnit i (·.become .failed)
      setUnit i (.guard false)

def start (i : Nat) : StProg Init Unit := do
  let s ← get
  unitStart env (s.nunits + 1) i

def unitRunSync (i : Nat) : StProg Init Unit := do
  start env i
  let s ← get
  if (s.unit i).state = .running then do
    let code ← waitpid env (s.unit i).pid
    setUnit i fun u =>
      { u with exitCode := code, pid := 0, state := if code = 0 then .exited else .failed }
  else pure ()

def SvcUnit.resetFailures (u : SvcUnit) : SvcUnit :=
  { u with fails := 0, backoff := 0, winStart := 0, winOpen := false }

def SvcUnit.counted (now : Nat) (u : SvcUnit) : SvcUnit :=
  if ¬ u.winOpen ∨ now - u.winStart > FAIL_WINDOW_MS then
    { u with winOpen := true, winStart := now, fails := 1, backoff := 0 }
  else { u with fails := u.fails + 1 }

/-- What `unit_died` makes of a unit that is not to be started at once. -/
def SvcUnit.died (now : Nat) (u : SvcUnit) : SvcUnit :=
  if u.stopping then
    { u with
      stopping := false
      state := if u.dependencyFailed then .failed else if u.enabled then .stopped else .disabled
      dependencyFailed := false }
  else if u.config.respawn = .never ∨ (u.config.respawn = .onFailure ∧ u.exitCode = 0) ∨
      ¬ u.enabled then
    { u with state := if u.enabled then .exited else .disabled }
  else if u.exitCode = 0 ∧ SETTLED_MS ≤ now - u.startMs then
    { u with restarts := u.restarts + 1, nextStart := now, state := .waiting }
  else if FAIL_MAX ≤ (u.counted now).fails then { u.counted now with state := .failed }
  else
    { u.counted now with
      restarts := u.restarts + 1
      nextStart := now + backoffMs (u.counted now).backoff
      backoff := min 3 ((u.counted now).backoff + 1)
      state := .waiting }

def unitDied (i : Nat) (code : Int) : StProg Init Unit := do
  let now ← uptimeMs env
  setUnit i fun u => { u with pid := 0, exitCode := code }
  let s ← get
  if (s.unit i).restartPending then do
    setUnit i fun u =>
      { u.resetFailures with restartPending := false, stopping := false, state := .stopped }
    start env i
  else setUnit i (.died now)

def reapUnit (i : Nat) : StProg Init Unit := do
  let s ← get
  if ((s.unit i).Up ∨ (s.unit i).stopping) ∧ 0 < (s.unit i).pid then do
    if ← pidAlive env (s.unit i).pid then pure ()
    else do
      let code ← waitpid env (s.unit i).pid
      unitDied env i code
  else pure ()

def reapChildren : StProg Init Unit := do
  let s ← get
  each (reapUnit env) (List.range s.nunits)

def runBackoff : StProg Init Unit := do
  let now ← uptimeMs env
  let s ← get
  each (fun i => do
    let s ← get
    if (s.unit i).state = .waiting ∧ (s.unit i).nextStart ≤ now then start env i else pure ())
    (List.range s.nunits)

def unitStop (i : Nat) : StProg Init Unit := do
  setUnit i fun u => { u with stopping := true }
  let s ← get
  if 0 < (s.unit i).pid then kill env (s.unit i).pid else pure ()

def missing (s : Init) (i : Nat) : Option Nat :=
  (List.range s.nunits).find? fun j =>
    unitRequires (s.unit i) (s.unit j).name ∧ ¬ requirementSatisfied (s.unit j)

def enforceUnit (i : Nat) : StProg Init Unit := do
  let s ← get
  if ((s.unit i).Up ∨ (s.unit i).state = .waiting) ∧ (missing s i).isSome then do
    setUnit i fun u => { u with dependencyFailed := true, nextStart := 0 }
    if 0 < (s.unit i).pid then do
      unitStop env i
      setUnit i (·.become .failed)
    else setUnit i fun u => { u with state := .failed, dependencyFailed := false }
  else pure ()

def enforceDependencies : StProg Init Unit := do
  let s ← get
  each (enforceUnit env) (List.range s.nunits)

/-- The unit with its new configuration, before `order_services` looks at it. -/
def SvcUnit.reloaded (fresh : Config) (u : SvcUnit) : SvcUnit :=
  { u with
    config := fresh
    state := if u.state = .failed then (if u.enabled then .stopped else .disabled) else u.state }

/-- `reload_service`, given what `svc_load` made of the file: on failure everything that was changed
is put back. -/
def reloadService (i : Nat) (fresh : Option Config) : StProg Init Bool := fun s =>
  match fresh with
  | none => (false, s)
  | some fresh =>
    if (s.unit i).kind ≠ .service then (false, s)
    else
      let s' := (orderServices (setUnit i (.reloaded fresh) s).2).2
      if (s'.unit i).state ≠ .failed then (true, s') else (false, s)

inductive Verb
  | start | stop | restart | reload | resetFailed
  deriving DecidableEq, Repr

def runVerb (i : Nat) (fresh : Option Config) : Verb → StProg Init Unit
  | .start => do
    let s ← get
    if (s.unit i).Up then pure ()
    else do
      setUnit i fun u =>
        { u.resetFailures with enabled := true, restartPending := false, dependencyFailed := false }
      start env i
  | .stop => do
    setUnit i fun u => { u with restartPending := false, dependencyFailed := false }
    let s ← get
    if (s.unit i).Up ∧ 0 < (s.unit i).pid then unitStop env i
    else setUnit i fun u => { u with state := .stopped, nextStart := 0 }
  | .restart => do
    setUnit i fun u => { u with enabled := true }
    let s ← get
    if (s.unit i).Up ∧ 0 < (s.unit i).pid then do
      setUnit i fun u => { u with restartPending := true }
      unitStop env i
    else do
      setUnit i .resetFailures
      start env i
  | .reload => do
    if ← reloadService i fresh then do
      let s ← get
      if (s.unit i).Up ∧ 0 < (s.unit i).pid then do
        if (s.unit i).enabled then setUnit i fun u => { u with restartPending := true }
        unitStop env i
      else if (s.unit i).enabled then pure ()
      else setUnit i (·.become .disabled)
    else pure ()
  | .resetFailed => setUnit i fun u =>
      { u with
        fails := 0
        backoff := 0
        winOpen := false
        nextStart := 0
        state := if u.state = .failed then (if u.enabled then .stopped else .disabled)
        else u.state }

/-- `run_command`; `fresh` is what `svc_load` would make of the service's file. -/
def runCommand (verb : Verb) (name : List UInt8) (fresh : Option Config) : StProg Init Unit := do
  let s ← get
  match findUnit s name with
  | none => pure ()
  | some i => runVerb env i fresh verb

inductive Event
  | reapChildren
  | enforceDependencies
  | runBackoff
  | command (verb : Verb) (name : List UInt8) (fresh : Option Config)

def step (s : Init) : Event → Init
  | .reapChildren => (reapChildren env s).2
  | .enforceDependencies => (enforceDependencies env s).2
  | .runBackoff => (runBackoff env s).2
  | .command verb name fresh => (runCommand env verb name fresh s).2

def sysinitUnit (i : Nat) : StProg Init Unit := do
  let s ← get
  if (s.unit i).kind = .sysinit ∧ (s.unit i).state ≠ .failed then unitRunSync env i else pure ()

def startUnit (due : SvcUnit → Bool) (i : Nat) : StProg Init Unit := do
  let s ← get
  if due (s.unit i) ∧ (s.unit i).state ≠ .failed then start env i else pure ()

/-- The three phases: `sysinit` one after the other, the services in their order, the rest. -/
def startAll : StProg Init Unit := do
  let s ← get
  let all := List.range s.nunits
  each (sysinitUnit env) all
  orderServices
  each (fun o => each (startUnit env fun u => u.kind = .service ∧ u.order = some o) all) all
  each (startUnit env fun u => u.kind = .respawn ∨ u.kind = .once) all

/-- A unit as `inittab` and the `.svc` files describe it; `loaded` is false where the program or the
file was not found. -/
structure Setup where
  name : List UInt8
  kind : Kind
  config : Config
  enabled : Bool
  loaded : Bool

def Setup.unit (u : Setup) : SvcUnit where
  name := u.name
  kind := u.kind
  config := u.config
  enabled := u.enabled
  state := if ¬ u.loaded then .failed else if u.enabled then .stopped else .disabled
  pid := 0
  restarts := 0
  exitCode := 0
  fails := 0
  winOpen := false
  backoff := 0
  stopping := false
  restartPending := false
  dependencyFailed := false
  startGuard := false
  seq := 0
  order := none
  winStart := 0
  nextStart := 0
  startMs := 0

def configured (units : List Setup) : Init where
  unit i := (units.getD i ⟨[], .once, ⟨[], [], [], [], .never, 0⟩, true, false⟩).unit
  nunits := units.length
  seqCounter := 0
  time := 0
  calls := 0
  nextPid := 2
  log := []

def boot (units : List Setup) : Init := (startAll env (configured units)).2

end KestrelOS.Supervisor
