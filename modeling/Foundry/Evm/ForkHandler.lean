import Foundry.Base.SwapRemove
import Foundry.Evm.ForkIds

/-!
# The handler of remote forks

The handler runs in the background: it receives requests, drives the tasks that establish
remote forks and answers each request on a channel of its own.  A request for a fork that is
being established joins the task; a fork that exists already is handed out again, with a
number more in its name.
-/

namespace Foundry.Evm

structure CreateFork where
  url : String
  /-- `evm_opts.fork_block_number`. -/
  forkBlockNumber : Option U64
  env : Env

/-- Tracks the created fork; `B` is the backend that its consumers share. -/
structure CreatedFork (B : Type) where
  opts : CreateFork
  backend : B
  /-- The cell with the number of consumers, which all clones share. -/
  numSenders : Nat

abbrev Sender := Nat

inductive Message (B : Type) where
  | created (reply : Except String (ForkId × B × Env))
  | fork (backend : Option B)
  | env (env : Option Env)
  | url (url : Option String)
  | done

inductive Request where
  | createFork (fork : CreateFork) (sender : Sender)
  | getFork (forkId : ForkId) (sender : Sender)
  | rollFork (forkId : ForkId) (block : U64) (sender : Sender)
  | getEnv (forkId : ForkId) (sender : Sender)
  | updateBlock (forkId : ForkId) (blockNumber blockTimestamp : U256)
  | updateEnv (forkId : ForkId) (env : BlockEnv)
  | shutDown (sender : Sender)
  | getForkUrl (forkId : ForkId) (sender : Sender)

structure ForkTask where
  /-- What the future establishes. -/
  fork : CreateFork
  id : ForkId
  sender : Sender
  additionalSenders : List Sender

structure Established (B : Type) where
  number : U64
  env : Env
  backend : B

structure MultiForkHandler (B : Type) where
  pendingTasks : List ForkTask
  forks : HashMap ForkId (CreatedFork B)
  /-- The cells that forks point to.  Each increment goes with a new entry of `forks`, of which
  there are fewer than a `usize` can count. -/
  counters : List Nat
  /-- What was sent so far. -/
  sent : List (Sender × Message B)

namespace MultiForkHandler

variable {B : Type}

def new : MultiForkHandler B := ⟨[], .empty, [], []⟩

section

variable (self : MultiForkHandler B)

def send (sender : Sender) (message : Message B) : MultiForkHandler B :=
  { self with sent := self.sent ++ [(sender, message)] }

/-! ## Requests -/

/-- The tasks after `sender` joined the one that is in progress for `id`. -/
def joinInProgressTask (id : ForkId) (sender : Sender) : List ForkTask → Option (List ForkTask)
  | [] => none
  | task :: tasks =>
    if task.id = id then
      some ({ task with additionalSenders := task.additionalSenders ++ [sender] } :: tasks)
    else (joinInProgressTask id sender tasks).map (task :: ·)

def createFork (fork : CreateFork) (sender : Sender) : MultiForkHandler B :=
  let forkId := ForkId.new fork.url fork.forkBlockNumber
  match joinInProgressTask forkId sender self.pendingTasks with
  | some tasks => { self with pendingTasks := tasks }
  | none => { self with pendingTasks := self.pendingTasks ++ [⟨fork, forkId, sender, []⟩] }

def updateEnv (forkId : ForkId) (env : BlockEnv) : MultiForkHandler B :=
  { self with
    forks := self.forks.update forkId fun fork =>
      { fork with opts := { fork.opts with env := { fork.opts.env with block := env } } } }

def updateBlock (forkId : ForkId) (blockNumber blockTimestamp : U256) : MultiForkHandler B :=
  { self with
    forks := self.forks.update forkId fun fork =>
      { fork with
        opts := { fork.opts with
          env := { fork.opts.env with
            block := { fork.opts.env.block with
              number := blockNumber
              timestamp := blockTimestamp } } } } }

def onRequest : Request → MultiForkHandler B
  | .createFork fork sender => self.createFork fork sender
  | .getFork forkId sender => self.send sender (.fork ((self.forks.get forkId).map (·.backend)))
  | .rollFork forkId block sender =>
    match self.forks.get forkId with
    | some fork => self.createFork { fork.opts with forkBlockNumber := some block } sender
    | none =>
      self.send sender (.created (.error ("No matching fork exits for " ++ forkId)))
  | .getEnv forkId sender => self.send sender (.env ((self.forks.get forkId).map (·.opts.env)))
  | .updateBlock forkId blockNumber blockTimestamp =>
    self.updateBlock forkId blockNumber blockTimestamp
  | .updateEnv forkId env => self.updateEnv forkId env
  | .shutDown sender => { self with forks := .empty }.send sender .done
  | .getForkUrl forkId sender =>
    self.send sender (.url ((self.forks.get forkId).map (·.opts.url)))

/-! ## Tasks -/

def incSenders (fork : CreatedFork B) (forkId : ForkId) : ForkId × MultiForkHandler B :=
  let n := self.counters.getD fork.numSenders 0
  (forkId.numbered n, { self with counters := self.counters.set fork.numSenders (n + 1) })

def track (forkId : ForkId) (fork : CreatedFork B) (sender : Sender) : MultiForkHandler B :=
  { self with forks := self.forks.insert forkId fork }.send sender
    (.created (.ok (forkId, fork.backend, fork.opts.env)))

end

def notify (fork : CreatedFork B) (forkId : ForkId) (self : MultiForkHandler B)
    (sender : Sender) : MultiForkHandler B :=
  let (nextForkId, self) := self.incSenders fork forkId
  self.track nextForkId fork sender

def insertNewFork (self : MultiForkHandler B) (forkId : ForkId) (fork : CreatedFork B)
    (sender : Sender) (additionalSenders : List Sender) : MultiForkHandler B :=
  additionalSenders.foldl (notify fork forkId) (self.track forkId fork sender)

/-- The result of the future `create_fork`: a fork with a counter of its own. -/
def establish (self : MultiForkHandler B) (fork : CreateFork) (result : Established B) :
    ForkId × CreatedFork B × MultiForkHandler B :=
  (ForkId.new fork.url (some result.number),
    ⟨{ fork with env := result.env }, result.backend, self.counters.length⟩,
    { self with counters := self.counters ++ [1] })

def sendError (err : String) (self : MultiForkHandler B) (sender : Sender) :
    MultiForkHandler B :=
  self.send sender (.created (.error err))

section

variable (self : MultiForkHandler B)

def complete (task : ForkTask) : Except String (Established B) → MultiForkHandler B
  | .ok result =>
    let (forkId, fork, self) := self.establish task.fork result
    match self.forks.get forkId with
    | some fork =>
      let (nextForkId, self) := self.incSenders fork forkId
      self.insertNewFork nextForkId fork task.sender task.additionalSenders
    | none => self.insertNewFork forkId fork task.sender task.additionalSenders
  | .error err => task.additionalSenders.foldl (sendError err) (self.sendError err task.sender)

/-- Advances the task at `n`, if there is one; `none` is a panic. -/
def advance (n : Nat) (resp : Option (Except String (Established B))) :
    Option (MultiForkHandler B) := do
  let (task, pendingTasks) ← swapRemove self.pendingTasks n
  let self := { self with pendingTasks := pendingTasks }
  match resp with
  | some resp => return self.complete task resp
  | none => return { self with pendingTasks := self.pendingTasks ++ [task] }

/-- Advances all tasks; `ready n` is what the future polled at `n` answers. -/
def advanceAll
    (ready : Nat → Option (Except String (Established B))) : Option (MultiForkHandler B) :=
  (List.range self.pendingTasks.length).reverse.foldlM (fun self n => self.advance n (ready n)) self

def poll (incoming : List Request)
    (ready : Nat → Option (Except String (Established B))) : Option (MultiForkHandler B) :=
  (incoming.foldl onRequest self).advanceAll ready

end

end MultiForkHandler

end Foundry.Evm
