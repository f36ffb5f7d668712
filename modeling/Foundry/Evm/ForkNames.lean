import Foundry.Evm.ForkHandler

/-!
# Every fork is handed out under a new name

All forks of one URL and block share the counter of the first of them, and each number of the
counter is used in one name only.
-/

namespace Foundry.Evm

open List HashMap

namespace MultiForkHandler

variable {B : Type}

def handedOut (self : MultiForkHandler B) : List ForkId :=
  self.sent.filterMap fun
    | (_, .created (.ok (forkId, _, _))) => some forkId
    | _ => none

/-- Each name is that of a first fork with numbers below its counter, and each identifier was
handed out once and is tracked. -/
structure Named (handler : MultiForkHandler B) : Prop where
  cell : ∀ forkId fork, handler.forks.get forkId = some fork →
    fork.numSenders < handler.counters.length
  name : ∀ forkId fork, handler.forks.get forkId = some fork → ∃ url block ns first,
    forkId = (ForkId.new url (some block)).numberedAll ns ∧
    handler.forks.get (ForkId.new url (some block)) = some first ∧
    first.numSenders = fork.numSenders ∧
    ∀ n ∈ ns, n < handler.counters.getD fork.numSenders 0
  once : handler.handedOut.Nodup
  tracked : ∀ forkId ∈ handler.handedOut, ∃ fork, handler.forks.get forkId = some fork

/-- Names stay apart when the counters only go up. -/
theorem Named.of_le {self next : MultiForkHandler B} (h : self.Named)
    (hforks : ∀ forkId, (next.forks.get forkId).map (·.numSenders) =
      (self.forks.get forkId).map (·.numSenders))
    (hlength : self.counters.length ≤ next.counters.length)
    (hcounters : ∀ i, self.counters.getD i 0 ≤ next.counters.getD i 0)
    (hsent : next.handedOut = self.handedOut) : next.Named := by
  have hget : ∀ {forkId fork}, next.forks.get forkId = some fork →
      ∃ before, self.forks.get forkId = some before ∧ before.numSenders = fork.numSenders := by
    intro forkId fork hfork
    apply Option.map_eq_some_iff.mp
    rw [← hforks forkId, hfork, Option.map_some]
  have hget' : ∀ {forkId fork}, self.forks.get forkId = some fork →
      ∃ after, next.forks.get forkId = some after ∧ after.numSenders = fork.numSenders := by
    intro forkId fork hfork
    apply Option.map_eq_some_iff.mp
    rw [hforks forkId, hfork, Option.map_some]
  constructor
  case cell =>
    intro forkId fork hfork
    obtain ⟨before, hbefore, hsame⟩ := hget hfork
    rw [← hsame]
    exact Nat.lt_of_lt_of_le (h.cell forkId before hbefore) hlength
  case name =>
    intro forkId fork hfork
    obtain ⟨before, hbefore, hsame⟩ := hget hfork
    obtain ⟨url, block, ns, first, hname, hfirst, hcell, hns⟩ := h.name forkId before hbefore
    obtain ⟨first', hfirst', hcell'⟩ := hget' hfirst
    refine ⟨url, block, ns, first', hname, hfirst', by rw [hcell', hcell, hsame], ?_⟩
    intro n hn
    rw [← hsame]
    exact Nat.lt_of_lt_of_le (hns n hn) (hcounters _)
  case once =>
    rw [hsent]
    exact h.once
  case tracked =>
    intro forkId hmem
    rw [hsent] at hmem
    obtain ⟨fork, hfork⟩ := h.tracked forkId hmem
    obtain ⟨after, hafter, -⟩ := hget' hfork
    exact ⟨after, hafter⟩

section Steps

variable {self : MultiForkHandler B} {forkId : ForkId} {fork : CreatedFork B}

theorem Named.send (h : self.Named) {sender : Sender} {message : Message B}
    (hmessage : ∀ id backend env, message ≠ .created (.ok (id, backend, env))) :
    (self.send sender message).Named := by
  refine h.of_le (fun _ => rfl) (Nat.le_refl _) (fun _ => Nat.le_refl _) ?_
  unfold handedOut MultiForkHandler.send
  rw [filterMap_append]
  refine (congrArg (_ ++ ·) ?_).trans (append_nil _)
  cases message with
  | created reply =>
    cases reply with
    | ok reply => exact absurd rfl (hmessage _ _ _)
    | error err => rfl
  | fork backend => rfl
  | env env => rfl
  | url url => rfl
  | done => rfl

theorem Named.establish (h : self.Named) (opts : CreateFork) (result : Established B) :
    (self.establish opts result).2.2.Named := by
  refine h.of_le (fun _ => rfl) ?_ ?_ rfl
  · simp [MultiForkHandler.establish]
  intro i
  simp only [MultiForkHandler.establish, getD_eq_getElem?_getD]
  by_cases hi : i < self.counters.length
  · rw [getElem?_append_left hi]
  · rw [getElem?_eq_none (Nat.le_of_not_lt hi)]
    exact Nat.zero_le _

theorem Named.incSenders (h : self.Named) (fork : CreatedFork B) (forkId : ForkId) :
    (self.incSenders fork forkId).2.Named := by
  refine h.of_le (fun _ => rfl) ?_ ?_ rfl
  · simp [MultiForkHandler.incSenders]
  · intro i
    simp only [MultiForkHandler.incSenders, getD_eq_getElem?_getD, getElem?_set]
    split
    · next heq =>
      subst heq
      split
      · simp
      · next hge => simp [getElem?_eq_none (Nat.le_of_not_lt hge)]
    · exact Nat.le_refl _

/-- A fork that is tracked under a new name keeps the names apart. -/
theorem Named.track (h : self.Named) (hnew : self.forks.get forkId = none)
    (hcell : fork.numSenders < self.counters.length) {url : String} {block : U64}
    {ns : List Nat} (hname : forkId = (ForkId.new url (some block)).numberedAll ns)
    (hfirst : ns = [] ∨ ∃ first, self.forks.get (ForkId.new url (some block)) = some first ∧
      first.numSenders = fork.numSenders)
    (hns : ∀ n ∈ ns, n < self.counters.getD fork.numSenders 0) (sender : Sender) :
    (self.track forkId fork sender).Named := by
  have hget : ∀ {id fork'}, self.forks.get id = some fork' →
      (self.forks.insert forkId fork).get id = some fork' := by
    intro id fork' hid
    have hne : id ≠ forkId := by
      rintro rfl
      rw [hnew] at hid
      cases hid
    rw [get_insert_of_ne _ _ hne, hid]
  have hsent : (self.track forkId fork sender).handedOut = self.handedOut ++ [forkId] := by
    unfold handedOut MultiForkHandler.track MultiForkHandler.send
    rw [filterMap_append]
    rfl
  constructor
  case cell =>
    intro id fork' hid
    change (self.forks.insert forkId fork).get id = some fork' at hid
    rw [get_insert] at hid
    split at hid
    · cases hid
      exact hcell
    · exact h.cell id fork' hid
  case name =>
    intro id fork' hid
    change (self.forks.insert forkId fork).get id = some fork' at hid
    rw [get_insert] at hid
    split at hid
    · next heq =>
      cases hid
      subst heq
      rcases hfirst with rfl | ⟨first, hfirst, hsame⟩
      · exact ⟨url, block, [], fork, hname, by
          rw [← show id = ForkId.new url (some block) from hname]
          exact get_insert_self _ _ _, rfl, hns⟩
      · exact ⟨url, block, ns, first, hname, hget hfirst, hsame, hns⟩
    · obtain ⟨url', block', ns', first, hname', hfirst', hsame, hns'⟩ := h.name id fork' hid
      exact ⟨url', block', ns', first, hname', hget hfirst', hsame, hns'⟩
  case once =>
    rw [hsent]
    refine h.once.append (nodup_singleton _) ?_
    intro id hid hmem
    rw [mem_singleton] at hmem
    subst hmem
    obtain ⟨fork', hfork'⟩ := h.tracked id hid
    rw [hnew] at hfork'
    cases hfork'
  case tracked =>
    intro id hid
    rw [hsent, mem_append, mem_singleton] at hid
    rcases hid with hid | rfl
    · obtain ⟨fork', hfork'⟩ := h.tracked id hid
      exact ⟨fork', hget hfork'⟩
    · exact ⟨fork, get_insert_self _ _ _⟩

/-- A fork is tracked under the identifier, with the counter of `fork`. -/
def Tracks (self : MultiForkHandler B) (forkId : ForkId) (fork : CreatedFork B) : Prop :=
  ∃ found, self.forks.get forkId = some found ∧ found.numSenders = fork.numSenders

section

variable (h : self.Named)

include h

/-- A reply hands out a name with the next number. -/
theorem Named.notify (htracks : self.Tracks forkId fork) (sender : Sender) :
    (notify fork forkId self sender).Named ∧ (notify fork forkId self sender).Tracks forkId fork ∧
      (notify fork forkId self sender).Tracks (self.incSenders fork forkId).1 fork := by
  obtain ⟨found, hfound, hsame⟩ := htracks
  obtain ⟨url, block, ns, first, hname, hfirst, hshared, hns⟩ := h.name forkId found hfound
  have hcell := h.cell forkId found hfound
  rw [hsame] at hshared hns hcell
  have hnext : (self.incSenders fork forkId).1 = (ForkId.new url (some block)).numberedAll
      (ns ++ [self.counters.getD fork.numSenders 0]) := by
    rw [ForkId.numberedAll_concat, ← hname]
    rfl
  have hnew : self.forks.get (self.incSenders fork forkId).1 = none := by
    cases hget : self.forks.get (self.incSenders fork forkId).1 with
    | none => rfl
    | some other =>
      obtain ⟨url', block', ns', first', hname', hfirst', hshared', hns'⟩ := h.name _ other hget
      obtain ⟨hbase, rfl⟩ := ForkId.numberedAll_inj (hnext.symm.trans hname')
      rw [hbase, hfirst'] at hfirst
      cases hfirst
      have hlt := hns' _ (mem_append_right _ (mem_singleton_self _))
      rw [← hshared', hshared] at hlt
      exact absurd hlt (Nat.lt_irrefl _)
  have hinc := h.incSenders fork forkId
  have hcounter : (self.incSenders fork forkId).2.counters.getD fork.numSenders 0 =
      self.counters.getD fork.numSenders 0 + 1 := by
    simp [MultiForkHandler.incSenders, hcell]
  refine ⟨hinc.track hnew ?_ hnext (.inr ⟨first, hfirst, hshared⟩) ?_ sender, ⟨found, ?_, hsame⟩,
    fork, get_insert_self _ _ _, rfl⟩
  · simpa [MultiForkHandler.incSenders] using hcell
  · intro n hn
    rw [hcounter]
    rw [mem_append, mem_singleton] at hn
    rcases hn with hn | rfl
    · exact Nat.lt_succ_of_lt (hns n hn)
    · exact Nat.lt_succ_self _
  · have hne : forkId ≠ (self.incSenders fork forkId).1 := by
      intro heq
      rw [← heq, hfound] at hnew
      cases hnew
    exact (get_insert_of_ne _ _ hne).trans hfound

theorem Named.notifyAll (htracks : self.Tracks forkId fork) (senders : List Sender) :
    (senders.foldl (MultiForkHandler.notify fork forkId) self).Named := by
  induction senders generalizing self with
  | nil => exact h
  | cons sender senders ih =>
    obtain ⟨hnext, htracks', -⟩ := h.notify htracks sender
    exact ih hnext htracks'

theorem Named.sendErrors (err : String) (senders : List Sender) :
    (senders.foldl (sendError err) self).Named := by
  induction senders generalizing self with
  | nil => exact h
  | cons sender senders ih => exact ih (h.send nofun)

theorem Named.complete (task : ForkTask)
    (resp : Except String (Established B)) : (self.complete task resp).Named := by
  cases resp with
  | error err => exact h.sendErrors err (task.sender :: task.additionalSenders)
  | ok result =>
    have hnext := h.establish task.fork result
    unfold MultiForkHandler.complete
    dsimp only
    split
    · next fork hfork =>
      obtain ⟨hnamed, -, htracks⟩ := hnext.notify ⟨fork, hfork, rfl⟩ task.sender
      exact hnamed.notifyAll htracks task.additionalSenders
    · next hnew =>
      have hcell : (self.establish task.fork result).2.1.numSenders <
          (self.establish task.fork result).2.2.counters.length := by
        simp [MultiForkHandler.establish]
      have hname : (self.establish task.fork result).1 =
          (ForkId.new task.fork.url (some result.number)).numberedAll [] := rfl
      have hnamed := hnext.track hnew hcell hname (.inl rfl) nofun task.sender
      exact hnamed.notifyAll ⟨_, get_insert_self _ _ _, rfl⟩ task.additionalSenders

theorem Named.withTasks (tasks : List ForkTask) :
    ({ self with pendingTasks := tasks } : MultiForkHandler B).Named :=
  h.of_le (fun _ => rfl) (Nat.le_refl _) (fun _ => Nat.le_refl _) rfl

theorem Named.createFork (opts : CreateFork) (sender : Sender) :
    (self.createFork opts sender).Named := by
  unfold MultiForkHandler.createFork
  dsimp only
  split
  · exact h.withTasks _
  · exact h.withTasks _

theorem Named.updateForks (forkId : ForkId)
    {f : CreatedFork B → CreatedFork B} (hf : ∀ fork, (f fork).numSenders = fork.numSenders) :
    ({ self with forks := self.forks.update forkId f } : MultiForkHandler B).Named := by
  refine h.of_le ?_ (Nat.le_refl _) (fun _ => Nat.le_refl _) rfl
  intro id
  rw [get_update]
  split
  · next heq =>
    rw [Option.map_map, heq]
    exact congrFun (congrArg Option.map (funext hf)) _
  · rfl

theorem Named.onRequest {req : Request} (hreq : ∀ sender, req ≠ .shutDown sender) :
    (self.onRequest req).Named := by
  cases req with
  | createFork opts sender => exact h.createFork opts sender
  | rollFork forkId block sender =>
    dsimp only [MultiForkHandler.onRequest]
    split
    · exact h.createFork _ sender
    · exact h.send nofun
  | updateBlock forkId blockNumber blockTimestamp => exact h.updateForks forkId fun _ => rfl
  | updateEnv forkId env => exact h.updateForks forkId fun _ => rfl
  | shutDown sender => exact absurd rfl (hreq sender)
  | getFork forkId sender => exact h.send nofun
  | getEnv forkId sender => exact h.send nofun
  | getForkUrl forkId sender => exact h.send nofun

end

theorem named_new : (new : MultiForkHandler B).Named := by
  constructor
  case cell => exact fun forkId fork h => nomatch h
  case name => exact fun forkId fork h => nomatch h
  case once => exact nodup_nil
  case tracked => exact fun forkId h => nomatch h

end Steps

end MultiForkHandler

end Foundry.Evm
