import Foundry.Evm.Fork

/-!
# The names of remote forks

A remote fork is named by its URL and block number, and by a number more each time the same
fork is handed out again.  The name and the numbers can be read back from the text.
-/

namespace Foundry.Evm

open List

def ForkId.new (url : String) (num : Option U64) : ForkId :=
  url ++ "@" ++
    match num with
    | some n => "0x" ++ String.ofList (Nat.toDigits 16 n.toNat)
    | none => "latest"

namespace ForkId

def numbered (id : ForkId) (n : Nat) : ForkId := id ++ "-" ++ toString n

/-- The identifier after it was numbered again and again. -/
def numberedAll (id : ForkId) (ns : List Nat) : ForkId := ns.foldl numbered id

theorem numberedAll_concat (id : ForkId) (ns : List Nat) (n : Nat) :
    id.numberedAll (ns ++ [n]) = (id.numberedAll ns).numbered n := by
  simp [numberedAll]

example : (ForkId.new "rpc" (some 255)).numberedAll [1, 2] = "rpc@0xff-1-2" := by decide +kernel

/-! ## Reading a name back -/

section Texts

variable {α : Type} {x : α} {l l' m m' : List α}

theorem eq_of_first (h : l ++ x :: m = l' ++ x :: m') (hl : x ∉ l) (hl' : x ∉ l') :
    l = l' ∧ m = m' := by
  induction l generalizing l' with
  | nil =>
    cases l' with
    | nil => simpa using h
    | cons b l' =>
      cases h
      exact absurd mem_cons_self hl'
  | cons a l ih =>
    cases l' with
    | nil =>
      cases h
      exact absurd mem_cons_self hl
    | cons b l' =>
      rw [cons_append, cons_append, List.cons.injEq] at h
      obtain ⟨heq, hm⟩ := ih h.2 (fun hx => hl (mem_cons_of_mem _ hx))
        fun hx => hl' (mem_cons_of_mem _ hx)
      exact ⟨by rw [h.1, heq], hm⟩

private theorem eq_of_last (h : l ++ x :: m = l' ++ x :: m') (hm : x ∉ m) (hm' : x ∉ m') :
    l = l' ∧ m = m' := by
  have hreverse : m.reverse ++ x :: l.reverse = m'.reverse ++ x :: l'.reverse := by
    simpa using congrArg List.reverse h
  obtain ⟨hm, hl⟩ := eq_of_first hreverse (by simpa using hm) (by simpa using hm')
  exact ⟨reverse_inj.mp hl, reverse_inj.mp hm⟩

end Texts

def suffix (ns : List Nat) : List Char := ns.flatMap fun n => '-' :: Nat.toDigits 10 n

theorem toList_numberedAll (id : ForkId) (ns : List Nat) :
    (id.numberedAll ns).toList = id.toList ++ suffix ns := by
  induction ns using List.reverseRecOn with
  | nil => simp [numberedAll, suffix]
  | append_singleton ns n ih =>
    rw [numberedAll_concat, numbered, String.toList_append, String.toList_append, ih]
    simp [suffix]

theorem toDigits_ten_inj {n n' : Nat} (h : Nat.toDigits 10 n = Nat.toDigits 10 n') : n = n' := by
  rw [← Nat.ofDigitChars_ten_toDigits (n := n), h, Nat.ofDigitChars_ten_toDigits]

theorem not_mem_toDigits_ten {c : Char} (hc : c.isDigit = false) (n : Nat) :
    c ∉ Nat.toDigits 10 n := by
  intro hmem
  have hdigit := Nat.isDigit_of_mem_toDigits (by decide) (by decide) hmem
  rw [hc] at hdigit
  cases hdigit

theorem suffix_inj {d d' : List Char} {ns ns' : List Nat} (hd : '-' ∉ d) (hd' : '-' ∉ d')
    (h : d ++ suffix ns = d' ++ suffix ns') : d = d' ∧ ns = ns' := by
  induction ns generalizing d d' ns' with
  | nil =>
    cases ns' with
    | nil => simpa [suffix] using h
    | cons n' ns' =>
      refine absurd ?_ hd
      rw [suffix, flatMap_nil, append_nil] at h
      rw [h]
      simp [suffix]
  | cons n ns ih =>
    cases ns' with
    | nil =>
      refine absurd ?_ hd'
      rw [suffix, suffix, flatMap_nil, append_nil] at h
      rw [← h]
      simp
    | cons n' ns' =>
      obtain ⟨heq, hrest⟩ := eq_of_first h hd hd'
      obtain ⟨hn, hns⟩ := ih (not_mem_toDigits_ten rfl n) (not_mem_toDigits_ten rfl n') hrest
      exact ⟨heq, by rw [toDigits_ten_inj hn, hns]⟩

private theorem not_mem_suffix {c : Char} (hdash : c ≠ '-') (hdigit : c.isDigit = false)
    (ns : List Nat) : c ∉ suffix ns := by
  unfold suffix
  rw [mem_flatMap]
  rintro ⟨n, -, hmem⟩
  rcases mem_cons.mp hmem with heq | hmem
  · exact hdash heq
  · exact not_mem_toDigits_ten hdigit n hmem

theorem not_mem_toDigits_sixteen {c : Char} (hc : ∀ d, d < 16 → c ≠ Nat.digitChar d) (n : Nat) :
    c ∉ Nat.toDigits 16 n := by
  induction n using Nat.strongRecOn with
  | ind n ih =>
    rw [Nat.toDigits_eq_if (by decide)]
    split
    · next hlt =>
      rw [mem_singleton]
      exact hc n hlt
    · next hge =>
      rw [mem_append, mem_singleton]
      rintro (hmem | heq)
      · exact ih (n / 16) (by omega) hmem
      · exact hc (n % 16) (by omega) heq

/-- The text after the last `@` of a name with a block number. -/
def block (n : U64) : List Char := '0' :: 'x' :: Nat.toDigits 16 n.toNat

private theorem toList_new (url : String) (n : U64) :
    (new url (some n)).toList = url.toList ++ '@' :: block n := by
  simp [new, block]

private theorem not_mem_block {c : Char} (hzero : c ≠ '0') (hx : c ≠ 'x')
    (hc : ∀ d, d < 16 → c ≠ Nat.digitChar d) (n : U64) : c ∉ block n := by
  simp [block, hzero, hx, not_mem_toDigits_sixteen hc]

theorem numberedAll_inj {url url' : String} {n n' : U64} {ns ns' : List Nat}
    (h : (new url (some n)).numberedAll ns = (new url' (some n')).numberedAll ns') :
    new url (some n) = new url' (some n') ∧ ns = ns' := by
  have hlist := congrArg String.toList h
  rw [toList_numberedAll, toList_numberedAll, toList_new, toList_new, append_assoc,
    append_assoc] at hlist
  have hat : ∀ n ns, '@' ∉ block n ++ suffix ns := by
    intro n ns
    rw [mem_append, not_or]
    exact ⟨not_mem_block (by decide) (by decide) (by decide) n, not_mem_suffix (by decide) rfl ns⟩
  have hdash : ∀ n, '-' ∉ block n := not_mem_block (by decide) (by decide) (by decide)
  obtain ⟨hurl, hrest⟩ := eq_of_last hlist (hat n ns) (hat n' ns')
  obtain ⟨hblock, hns⟩ := suffix_inj (hdash n) (hdash n') hrest
  refine ⟨?_, hns⟩
  rw [← String.toList_inj, toList_new, toList_new, hurl, hblock]

end ForkId

end Foundry.Evm
