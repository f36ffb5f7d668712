import Foundry.Evm.ForkNames

/-!
# Every request for a fork is answered once

Clients open a channel for each of their requests and the handler is polled again and again.
Whatever the order of requests and of the tasks' responses, a request for a fork waits in one
task or has one reply, and requests that wait in one task are answered alike.
-/

namespace Foundry.Evm

open List

variable {B : Type}

def outcome {α : Type} (reply : Except String α) : Except String Unit := reply.map fun _ => ()

def ForkTask.senders (task : ForkTask) : List Sender := task.sender :: task.additionalSenders

namespace MultiForkHandler

def replies (self : MultiForkHandler B) (sender : Sender) :
    List (Except String (ForkId × B × Env)) :=
  self.sent.filterMap fun
    | (target, .created reply) => if target = sender then some reply else none
    | _ => none

def outcomes (self : MultiForkHandler B) (sender : Sender) : List (Except String Unit) :=
  (self.replies sender).map outcome

def waiting (self : MultiForkHandler B) : List Sender := self.pendingTasks.flatMap ForkTask.senders

/-! ## The senders of a task are answered alike -/

/-- The step to `next` answers each of the senders with `o`, and no one else. -/
def Answers (o : Except String Unit) (senders : List Sender) (self next : MultiForkHandler B) :
    Prop :=
  ∀ sender, next.outcomes sender = self.outcomes sender ++ List.replicate (senders.count sender) o

section Answers

variable {self : MultiForkHandler B} {o : Except String Unit} (self)

theorem outcomes_send (target : Sender) (reply : Except String (ForkId × B × Env)) :
    Answers (outcome reply) [target] self (self.send target (.created reply)) := by
  intro sender
  unfold outcomes replies send
  by_cases h : target = sender
  · simp [h]
  · simp [h]

private theorem replies_send (self : MultiForkHandler B) {target : Sender} (message : Message B)
    (hmessage : ∀ reply, message ≠ .created reply) (sender : Sender) :
    (self.send target message).replies sender = self.replies sender := by
  unfold replies send
  rw [filterMap_append]
  refine (congrArg (_ ++ ·) ?_).trans (append_nil _)
  cases message with
  | created reply => exact absurd rfl (hmessage reply)
  | fork backend => rfl
  | env env => rfl
  | url url => rfl
  | done => rfl

theorem answers_foldl {f : MultiForkHandler B → Sender → MultiForkHandler B}
    (hf : ∀ self sender, Answers o [sender] self (f self sender)) (senders : List Sender)
    (self : MultiForkHandler B) : Answers o senders self (senders.foldl f self) := by
  induction senders generalizing self with
  | nil =>
    intro sender
    simp
  | cons target senders ih =>
    intro sender
    rw [foldl_cons, ih (f self target) sender, hf self target sender, append_assoc,
      replicate_append_replicate, ← count_append]
    rfl

theorem answers_insertNewFork (forkId : ForkId)
    (fork : CreatedFork B) (sender : Sender) (additionalSenders : List Sender) :
    Answers (.ok ()) (sender :: additionalSenders) self
      (self.insertNewFork forkId fork sender additionalSenders) := by
  intro target
  have hnotify : ∀ (self : MultiForkHandler B) (sender : Sender),
      Answers (.ok ()) [sender] self (notify fork forkId self sender) :=
    fun self sender => outcomes_send _ sender (.ok _)
  unfold insertNewFork
  have hfirst : Answers (.ok ()) [sender] self (self.track forkId fork sender) :=
    outcomes_send _ sender (.ok _)
  rw [answers_foldl hnotify additionalSenders _ target, hfirst target, append_assoc,
    replicate_append_replicate, ← count_append]
  rfl

theorem answers_complete (task : ForkTask) (resp : Except String (Established B)) :
    Answers (outcome resp) task.senders self (self.complete task resp) := by
  cases resp with
  | error err =>
    have herror : ∀ (self : MultiForkHandler B) (sender : Sender),
        Answers (.error err) [sender] self (sendError err self sender) :=
      fun self sender => outcomes_send self sender (.error err)
    exact answers_foldl herror task.senders self
  | ok result =>
    unfold complete
    dsimp only
    split
    · exact answers_insertNewFork _ _ _ _ _
    · exact answers_insertNewFork _ _ _ _ _

end Answers

private theorem pendingTasks_foldl {f : MultiForkHandler B → Sender → MultiForkHandler B}
    (hf : ∀ self sender, (f self sender).pendingTasks = self.pendingTasks)
    (senders : List Sender) (self : MultiForkHandler B) :
    (senders.foldl f self).pendingTasks = self.pendingTasks := by
  induction senders generalizing self with
  | nil => rfl
  | cons sender senders ih => exact (ih (f self sender)).trans (hf self sender)

section

variable (self : MultiForkHandler B) {sender : Sender}

theorem pendingTasks_complete (task : ForkTask) (resp : Except String (Established B)) :
    (self.complete task resp).pendingTasks = self.pendingTasks := by
  cases resp with
  | error err =>
    exact pendingTasks_foldl (f := sendError err) (fun _ _ => rfl) task.senders self
  | ok result =>
    have hinsert : ∀ (self : MultiForkHandler B) (forkId : ForkId) (fork : CreatedFork B),
        (self.insertNewFork forkId fork task.sender task.additionalSenders).pendingTasks =
          self.pendingTasks := fun self forkId fork =>
      pendingTasks_foldl (f := notify fork forkId) (fun _ _ => rfl) _ _
    unfold complete
    dsimp only
    split
    · exact hinsert _ _ _
    · exact hinsert _ _ _

private theorem advance_of_lt {n : Nat} (h : n < self.pendingTasks.length)
    (resp : Option (Except String (Established B))) : ∃ next, self.advance n resp = some next ∧
      next.pendingTasks.length + (if resp.isSome then 1 else 0) = self.pendingTasks.length := by
  obtain ⟨task, tasks, hremove⟩ := swapRemove_of_lt h
  have hlength := (swapRemove_perm hremove).length_eq
  unfold advance
  rw [hremove]
  cases resp with
  | none => exact ⟨_, rfl, by simpa using hlength⟩
  | some resp =>
    refine ⟨_, rfl, ?_⟩
    rw [pendingTasks_complete]
    exact hlength

/-! ## Joining a task -/

theorem joinInProgressTask_some {id : ForkId} {tasks joined : List ForkTask}
    (h : joinInProgressTask id sender tasks = some joined) :
    ∃ front task back, tasks = front ++ task :: back ∧
      tasks.find? (fun task => task.id = id) = some task ∧
      joined = front ++
        { task with additionalSenders := task.additionalSenders ++ [sender] } :: back := by
  induction tasks generalizing joined with
  | nil => cases h
  | cons task tasks ih =>
    unfold joinInProgressTask at h
    split at h
    · next heq =>
      cases h
      exact ⟨[], task, tasks, rfl, find?_cons_of_pos (decide_eq_true heq), rfl⟩
    · next hne =>
      obtain ⟨joined', hjoined, rfl⟩ := Option.map_eq_some_iff.mp h
      obtain ⟨front, found, back, rfl, hfind, rfl⟩ := ih hjoined
      refine ⟨task :: front, found, back, rfl, ?_, rfl⟩
      rw [find?_cons_of_neg (by simpa using hne)]
      exact hfind

theorem joinInProgressTask_none {id : ForkId} {tasks : List ForkTask}
    (h : joinInProgressTask id sender tasks = none) :
    tasks.find? (fun task => task.id = id) = none := by
  induction tasks with
  | nil => rfl
  | cons task tasks ih =>
    unfold joinInProgressTask at h
    split at h
    · cases h
    · next hne =>
      rw [find?_cons_of_neg (by simpa using hne)]
      exact ih (Option.map_eq_none_iff.mp h)

def inProgress (fork : CreateFork) : Option ForkTask :=
  self.pendingTasks.find? fun task => task.id = ForkId.new fork.url fork.forkBlockNumber

/-- `s` joined the task of `s₀`, which is pending, or both were answered alike. -/
def Together (s s₀ : Sender) : Prop :=
  (∃ task ∈ self.pendingTasks, s ∈ task.additionalSenders ∧ s₀ = task.sender) ∨
    self.outcomes s ≠ [] ∧ self.outcomes s = self.outcomes s₀

/-- A request waits in a task that was in progress or in a new one. -/
theorem createFork_spec (fork : CreateFork) (sender : Sender) :
    (self.createFork fork sender).sent = self.sent ∧
      (∀ s, (self.createFork fork sender).waiting.count s =
        self.waiting.count s + [sender].count s) ∧
      (∀ s s₀, self.Together s s₀ → (self.createFork fork sender).Together s s₀) ∧
      ∀ task, self.inProgress fork = some task →
        (self.createFork fork sender).Together sender task.sender := by
  unfold createFork
  dsimp only
  split
  · next tasks hjoin =>
    obtain ⟨front, task, back, htasks, hfind, rfl⟩ := joinInProgressTask_some hjoin
    refine ⟨rfl, ?_, ?_, ?_⟩
    · intro s
      unfold waiting
      rw [htasks]
      simp only [flatMap_append, flatMap_cons, ForkTask.senders, count_append, count_cons]
      omega
    · rintro s s₀ (⟨found, hfound, hs, rfl⟩ | hsame)
      · left
        rw [htasks, mem_append, mem_cons] at hfound
        rcases hfound with hfront | rfl | hback
        · exact ⟨found, mem_append_left _ hfront, hs, rfl⟩
        · exact ⟨_, mem_append_right _ mem_cons_self, mem_append_left _ hs, rfl⟩
        · exact ⟨found, mem_append_right _ (mem_cons_of_mem _ hback), hs, rfl⟩
      · exact .inr hsame
    · intro found hfound
      cases hfind.symm.trans hfound
      exact .inl ⟨_, mem_append_right _ mem_cons_self,
        mem_append_right _ (mem_singleton_self _), rfl⟩
  · next hjoin =>
    refine ⟨rfl, ?_, ?_, ?_⟩
    · intro s
      simp [waiting, ForkTask.senders]
    · rintro s s₀ (⟨found, hfound, hs⟩ | hsame)
      · exact .inl ⟨found, mem_append_left _ hfound, hs⟩
      · exact .inr hsame
    · intro found hfound
      cases (joinInProgressTask_none hjoin).symm.trans hfound

end

end MultiForkHandler

/-! ## Clients and the handler -/

/-- What a client calls; shutting down is left to the last client that is dropped. -/
inductive ForkCall where
  | createFork (fork : CreateFork)
  | rollFork (forkId : ForkId) (block : U64)
  | updateBlock (forkId : ForkId) (blockNumber blockTimestamp : U256)
  | updateEnv (forkId : ForkId) (env : BlockEnv)
  | getFork (forkId : ForkId)
  | getEnv (forkId : ForkId)
  | getForkUrl (forkId : ForkId)

namespace ForkCall

def request (sender : Sender) : ForkCall → Request
  | .createFork fork => .createFork fork sender
  | .rollFork forkId block => .rollFork forkId block sender
  | .updateBlock forkId blockNumber blockTimestamp =>
    .updateBlock forkId blockNumber blockTimestamp
  | .updateEnv forkId env => .updateEnv forkId env
  | .getFork forkId => .getFork forkId sender
  | .getEnv forkId => .getEnv forkId sender
  | .getForkUrl forkId => .getForkUrl forkId sender

def requests : Sender → List ForkCall → List Request
  | _, [] => []
  | sender, call :: calls => call.request sender :: requests (sender + 1) calls

def asks : ForkCall → Bool
  | .createFork _ => true
  | .rollFork _ _ => true
  | _ => false

def joins (handler : MultiForkHandler B) : ForkCall → Option ForkTask
  | .createFork fork => handler.inProgress fork
  | .rollFork forkId block =>
    (handler.forks.get forkId).bind fun fork =>
      handler.inProgress { fork.opts with forkBlockNumber := some block }
  | _ => none

end ForkCall

/-- The handler with its clients: how many channels were opened, which of them ask for a fork,
and which of them joined the task of another. -/
structure ForkSystem (B : Type) where
  handler : MultiForkHandler B
  opened : Nat
  asked : List Sender
  joined : List (Sender × Sender)

/-- The calls that arrive before the tasks are polled, and what their futures answer. -/
structure ForkPoll (B : Type) where
  calls : List ForkCall
  ready : Nat → Option (Except String (Established B))

namespace ForkSystem

def new : ForkSystem B := ⟨.new, 0, [], []⟩

def receive (self : ForkSystem B) (call : ForkCall) : ForkSystem B where
  handler := self.handler.onRequest (call.request self.opened)
  opened := self.opened + 1
  asked := if call.asks then self.asked ++ [self.opened] else self.asked
  joined :=
    match call.joins self.handler with
    | some task => self.joined ++ [(self.opened, task.sender)]
    | none => self.joined

def poll (self : ForkSystem B) (p : ForkPoll B) : Option (ForkSystem B) := do
  let handler ← self.handler.poll (ForkCall.requests self.opened p.calls) p.ready
  return { p.calls.foldl receive self with handler := handler }

def run (self : ForkSystem B) (polls : List (ForkPoll B)) : Option (ForkSystem B) :=
  polls.foldlM poll self

/-- A channel that asked for a fork waits in one task or has one reply. -/
structure Accounted (system : ForkSystem B) : Prop where
  opened : ∀ s ∈ system.asked, s < system.opened
  balance : ∀ s, (system.handler.outcomes s).length + system.handler.waiting.count s =
    if s ∈ system.asked then 1 else 0
  joined : ∀ pair ∈ system.joined, system.handler.Together pair.1 pair.2
  named : system.handler.Named

section Steps

variable {self : ForkSystem B}

section

variable (h : self.Accounted) {next : MultiForkHandler B}

include h

theorem Accounted.fresh : self.opened ∉ self.asked ∧ self.handler.outcomes self.opened = [] := by
  have hnot : self.opened ∉ self.asked := fun hmem => Nat.lt_irrefl _ (h.opened _ hmem)
  have hbalance := h.balance self.opened
  rw [if_neg hnot] at hbalance
  exact ⟨hnot, length_eq_zero_iff.mp (Nat.eq_zero_of_add_eq_zero_right hbalance)⟩

theorem Accounted.balance_ask (hnext : ∀ s, (next.outcomes s).length + next.waiting.count s =
      (self.handler.outcomes s).length + self.handler.waiting.count s + [self.opened].count s)
    (s : Sender) :
    (next.outcomes s).length + next.waiting.count s =
      if s ∈ self.asked ++ [self.opened] then 1 else 0 := by
  rw [hnext, h.balance]
  by_cases hs : s = self.opened
  · subst hs
    rw [if_neg h.fresh.1, if_pos (mem_append_right _ (mem_singleton_self _)), count_singleton_self]
  · simp [hs, Ne.symm hs]

theorem Accounted.opened_ask : ∀ s ∈ self.asked ++ [self.opened], s < self.opened + 1 := by
  intro s hs
  rw [mem_append, mem_singleton] at hs
  rcases hs with hs | rfl
  · exact Nat.lt_succ_of_lt (h.opened s hs)
  · exact Nat.lt_succ_self _

theorem Accounted.create (fork : CreateFork) : Accounted
      { handler := self.handler.createFork fork self.opened
        opened := self.opened + 1
        asked := self.asked ++ [self.opened]
        joined :=
          match self.handler.inProgress fork with
          | some task => self.joined ++ [(self.opened, task.sender)]
          | none => self.joined } := by
  obtain ⟨hsent, hwaiting, htogether, hjoins⟩ := self.handler.createFork_spec fork self.opened
  refine ⟨h.opened_ask, h.balance_ask fun s => ?_, ?_, h.named.createFork fork self.opened⟩
  · unfold MultiForkHandler.outcomes MultiForkHandler.replies
    rw [hsent, hwaiting, Nat.add_assoc]
  have hold : ∀ pair ∈ self.joined,
      (self.handler.createFork fork self.opened).Together pair.1 pair.2 :=
    fun pair hpair => htogether _ _ (h.joined pair hpair)
  split
  · next task htask =>
    intro pair hpair
    rw [mem_append, mem_singleton] at hpair
    rcases hpair with hpair | rfl
    · exact hold pair hpair
    · exact hjoins task htask
  · exact hold

theorem Accounted.refuse (err : String) : Accounted { self with
        handler := self.handler.sendError err self.opened
        opened := self.opened + 1
        asked := self.asked ++ [self.opened] } := by
  have hanswers : MultiForkHandler.Answers (.error err) [self.opened] self.handler
      (self.handler.sendError err self.opened) :=
    self.handler.outcomes_send self.opened (.error err)
  refine ⟨h.opened_ask, h.balance_ask fun s => ?_, ?_, h.named.send nofun⟩
  · rw [hanswers s, length_append, length_replicate]
    change _ + self.handler.waiting.count s = _
    omega
  intro pair hpair
  have hsame : ∀ s, self.handler.outcomes s ≠ [] →
      (self.handler.sendError err self.opened).outcomes s = self.handler.outcomes s := by
    intro s hs
    have hne : s ≠ self.opened := by
      rintro rfl
      exact hs h.fresh.2
    rw [hanswers s, count_singleton, if_neg (by simpa using hne.symm)]
    exact append_nil _
  rcases h.joined pair hpair with hpending | ⟨hsome, heq⟩
  · exact .inl hpending
  · refine .inr ?_
    rw [hsame _ hsome, hsame _ (heq ▸ hsome)]
    exact ⟨hsome, heq⟩

theorem Accounted.silent (hreplies : ∀ s, next.replies s = self.handler.replies s)
    (htasks : next.pendingTasks = self.handler.pendingTasks) (hnamed : next.Named) :
    Accounted { self with handler := next, opened := self.opened + 1 } := by
  have houtcomes : ∀ s, next.outcomes s = self.handler.outcomes s :=
    fun s => congrArg (List.map outcome) (hreplies s)
  refine ⟨fun s hs => Nat.lt_succ_of_lt (h.opened s hs), fun s => ?_, ?_, hnamed⟩
  · unfold MultiForkHandler.waiting
    rw [htasks, houtcomes]
    exact h.balance s
  · intro pair hpair
    unfold MultiForkHandler.Together
    rw [htasks, houtcomes, houtcomes]
    exact h.joined pair hpair

end

theorem Accounted.receive (h : self.Accounted) (call : ForkCall) :
    (self.receive call).Accounted := by
  have hrequest : (self.handler.onRequest (call.request self.opened)).Named := by
    refine h.named.onRequest ?_
    cases call <;> nofun
  cases call with
  | createFork fork => exact h.create fork
  | rollFork forkId block =>
    cases hfork : self.handler.forks.get forkId with
    | none =>
      have hrefused := h.refuse ("No matching fork exits for " ++ forkId)
      unfold ForkSystem.receive
      simp only [ForkCall.request, MultiForkHandler.onRequest, ForkCall.joins, hfork]
      exact hrefused
    | some fork =>
      have hcreated := h.create { fork.opts with forkBlockNumber := some block }
      unfold ForkSystem.receive
      simp only [ForkCall.request, MultiForkHandler.onRequest, ForkCall.joins, hfork]
      exact hcreated
  | updateBlock forkId blockNumber blockTimestamp =>
    exact h.silent (fun _ => rfl) rfl hrequest
  | updateEnv forkId env => exact h.silent (fun _ => rfl) rfl hrequest
  | getFork forkId => exact h.silent (self.handler.replies_send _ nofun) rfl hrequest
  | getEnv forkId => exact h.silent (self.handler.replies_send _ nofun) rfl hrequest
  | getForkUrl forkId => exact h.silent (self.handler.replies_send _ nofun) rfl hrequest

section

variable (h : self.Accounted) {task : ForkTask} {tasks : List ForkTask}

include h

theorem Accounted.of_mem_task (hperm : (task :: tasks).Perm self.handler.pendingTasks) {s : Sender}
    (hs : s ∈ task.senders) : self.handler.outcomes s = [] ∧ task.senders.count s = 1 := by
  have hcount := (hperm.flatMap_right ForkTask.senders).count_eq s
  rw [flatMap_cons, count_append] at hcount
  have hbalance := h.balance s
  have hle : (if s ∈ self.asked then 1 else 0) ≤ 1 := by split <;> decide
  have hpos := count_pos_iff.mpr hs
  unfold MultiForkHandler.waiting at hbalance
  refine ⟨length_eq_zero_iff.mp ?_, ?_⟩ <;> omega

theorem Accounted.complete (hperm : (task :: tasks).Perm self.handler.pendingTasks)
    (resp : Except String (Established B)) : Accounted { self with
      handler := { self.handler with pendingTasks := tasks }.complete task resp } := by
  have hanswers : MultiForkHandler.Answers (outcome resp) task.senders self.handler
      ({ self.handler with pendingTasks := tasks }.complete task resp) :=
    MultiForkHandler.answers_complete { self.handler with pendingTasks := tasks } task resp
  have htasks : ({ self.handler with pendingTasks := tasks }.complete task resp).pendingTasks =
      tasks := MultiForkHandler.pendingTasks_complete _ task resp
  refine ⟨h.opened, fun s => ?_, ?_, (h.named.withTasks tasks).complete task resp⟩
  · have hcount := (hperm.flatMap_right ForkTask.senders).count_eq s
    rw [flatMap_cons, count_append] at hcount
    rw [← h.balance s, hanswers s, MultiForkHandler.waiting, htasks, MultiForkHandler.waiting,
      length_append, length_replicate]
    omega
  intro pair hpair
  rcases h.joined pair hpair with ⟨found, hfound, hs, hs₀⟩ | ⟨hsome, heq⟩
  · rcases mem_cons.mp (hperm.symm.subset hfound) with rfl | hrest
    · have hone := h.of_mem_task hperm (mem_cons_of_mem _ hs)
      have hone₀ := h.of_mem_task hperm (hs₀ ▸ mem_cons_self : pair.2 ∈ found.senders)
      right
      rw [hanswers, hanswers, hone.1, hone.2, hone₀.1, hone₀.2]
      exact ⟨nofun, rfl⟩
    · refine .inl ⟨found, ?_, hs, hs₀⟩
      rw [htasks]
      exact hrest
  · have hnot : ∀ s, self.handler.outcomes s ≠ [] → task.senders.count s = 0 := by
      intro s hs
      refine count_eq_zero.mpr fun hmem => hs ?_
      exact (h.of_mem_task hperm hmem).1
    right
    rw [hanswers, hanswers, hnot _ hsome, hnot _ (heq ▸ hsome)]
    simpa using ⟨hsome, heq⟩

theorem Accounted.advance {next : MultiForkHandler B} {n : Nat}
    {resp : Option (Except String (Established B))}
    (hok : self.handler.advance n resp = some next) : Accounted { self with handler := next } := by
  obtain ⟨⟨task, tasks⟩, hremove, hok⟩ := Option.bind_eq_some_iff.mp hok
  have hperm := swapRemove_perm hremove
  cases resp with
  | some resp =>
    cases hok
    exact h.complete hperm resp
  | none =>
    cases hok
    have hback : (tasks ++ [task]).Perm self.handler.pendingTasks :=
      (perm_append_singleton task tasks).trans hperm
    refine ⟨h.opened, fun s => ?_, ?_, h.named.withTasks _⟩
    · have hcount := (hback.flatMap_right ForkTask.senders).count_eq s
      rw [← h.balance s]
      exact congrArg _ hcount
    · intro pair hpair
      rcases h.joined pair hpair with ⟨found, hfound, hs⟩ | hsame
      · exact .inl ⟨found, hback.symm.subset hfound, hs⟩
      · exact .inr hsame

theorem Accounted.advanceTo {n : Nat} (hn : n ≤ self.handler.pendingTasks.length)
    (ready : Nat → Option (Except String (Established B))) : ∃ next, (List.range n).reverse.foldlM
        (fun (handler : MultiForkHandler B) n => handler.advance n (ready n)) self.handler =
          some next ∧
      Accounted { self with handler := next } ∧
      ((∀ n, (ready n).isSome) → next.pendingTasks.length + n =
        self.handler.pendingTasks.length) := by
  induction n generalizing self with
  | zero => exact ⟨self.handler, rfl, h, fun _ => rfl⟩
  | succ n ih =>
    obtain ⟨middle, hstep, hlength⟩ := self.handler.advance_of_lt hn (ready n)
    have hmiddle := h.advance hstep
    have hle : n ≤ middle.pendingTasks.length := by
      split at hlength <;> omega
    obtain ⟨next, hrest, hnext, hfinal⟩ := ih hmiddle hle
    refine ⟨next, ?_, hnext, ?_⟩
    · rw [range_succ, reverse_append, reverse_singleton, singleton_append, foldlM_cons, hstep]
      exact hrest
    · intro hready
      have hsum := hfinal hready
      rw [if_pos (hready n)] at hlength
      dsimp only at hsum
      omega

theorem Accounted.receiveAll (calls : List ForkCall) :
    (calls.foldl ForkSystem.receive self).Accounted ∧
      (calls.foldl ForkSystem.receive self).handler =
        (ForkCall.requests self.opened calls).foldl MultiForkHandler.onRequest self.handler := by
  induction calls generalizing self with
  | nil => exact ⟨h, rfl⟩
  | cons call calls ih => exact ih (h.receive call)

theorem Accounted.poll (p : ForkPoll B) : ∃ next, self.poll p = some next ∧ next.Accounted := by
  obtain ⟨hreceived, hhandler⟩ := h.receiveAll p.calls
  obtain ⟨next, hok, hnext, -⟩ := hreceived.advanceTo (Nat.le_refl _) p.ready
  rw [hhandler] at hok
  refine ⟨_, ?_, hnext⟩
  unfold ForkSystem.poll MultiForkHandler.poll MultiForkHandler.advanceAll
  rw [hok]
  rfl

theorem Accounted.run (polls : List (ForkPoll B)) :
    ∃ next, self.run polls = some next ∧ next.Accounted := by
  induction polls generalizing self with
  | nil => exact ⟨self, rfl, h⟩
  | cons p polls ih =>
    obtain ⟨middle, hpoll, hmiddle⟩ := h.poll p
    obtain ⟨next, hrun, hnext⟩ := ih hmiddle
    refine ⟨next, ?_, hnext⟩
    unfold ForkSystem.run
    rw [foldlM_cons, hpoll]
    exact hrun

end

theorem accounted_new : (new : ForkSystem B).Accounted :=
  ⟨nofun, fun _ => rfl, nofun, MultiForkHandler.named_new⟩

end Steps

structure Protocol (system : ForkSystem B) : Prop where
  /-- A channel that asked for a fork waits in one task or has exactly one reply. -/
  reply : ∀ s ∈ system.asked, (system.handler.replies s).length + system.handler.waiting.count s = 1
  /-- No one is left waiting once all tasks have completed. -/
  finish : ∀ ready, (∀ n, (ready n).isSome) → ∃ next,
    system.handler.advanceAll ready = some next ∧ ∀ s ∈ system.asked, (next.replies s).length = 1
  distinct : system.handler.handedOut.Nodup
  /-- A fork that was handed out is tracked, with an environment of its own. -/
  tracked : ∀ forkId ∈ system.handler.handedOut,
    ∃ fork, system.handler.forks.get forkId = some fork ∧
      ∀ env, (∃ updated, (system.handler.updateEnv forkId env).forks.get forkId = some updated ∧
          updated.opts.env.block = env) ∧
        ∀ other, other ≠ forkId →
          (system.handler.updateEnv forkId env).forks.get other = system.handler.forks.get other ∧
          (system.handler.updateBlock forkId env.number env.timestamp).forks.get other =
            system.handler.forks.get other
  /-- Who joined a task is answered when the task is, and alike. -/
  joined : ∀ pair ∈ system.joined, system.handler.outcomes pair.1 = system.handler.outcomes pair.2

/-- The protocol is kept if every channel is accounted for. -/
theorem Accounted.protocol {self : ForkSystem B} (h : self.Accounted) : self.Protocol := by
  have hlength : ∀ (handler : MultiForkHandler B) s,
      (handler.replies s).length = (handler.outcomes s).length :=
    fun handler s => (length_map _).symm
  constructor
  case reply =>
    intro s hs
    rw [hlength, h.balance s, if_pos hs]
  case finish =>
    intro ready hready
    obtain ⟨next, hok, hnext, hfinal⟩ := h.advanceTo (Nat.le_refl _) ready
    refine ⟨next, hok, fun s hs => ?_⟩
    have hempty : next.pendingTasks = [] :=
      length_eq_zero_iff.mp (Nat.add_eq_right.mp (hfinal hready))
    have hbalance := hnext.balance s
    rw [if_pos hs] at hbalance
    rw [hlength, ← hbalance, MultiForkHandler.waiting, hempty]
    rfl
  case distinct => exact h.named.once
  case tracked =>
    intro forkId hmem
    obtain ⟨fork, hfork⟩ := h.named.tracked forkId hmem
    refine ⟨fork, hfork, fun env => ⟨?_, fun other hne => ⟨?_, ?_⟩⟩⟩
    · refine ⟨{ fork with opts := { fork.opts with env := { fork.opts.env with block := env } } },
        ?_, rfl⟩
      refine (HashMap.get_update _ _ _ _).trans ((if_pos rfl).trans ?_)
      rw [hfork]
      rfl
    · exact (HashMap.get_update _ _ _ _).trans (if_neg hne)
    · exact (HashMap.get_update _ _ _ _).trans (if_neg hne)
  case joined =>
    intro pair hpair
    rcases h.joined pair hpair with ⟨task, htask, hs, hs₀⟩ | ⟨-, heq⟩
    · obtain ⟨front, back, htasks⟩ := append_of_mem htask
      have hperm : (task :: (front ++ back)).Perm self.handler.pendingTasks := by
        rw [htasks]
        exact perm_middle.symm
      rw [(h.of_mem_task hperm (mem_cons_of_mem _ hs)).1, hs₀,
        (h.of_mem_task hperm mem_cons_self).1]
    · exact heq

end ForkSystem

end Foundry.Evm
