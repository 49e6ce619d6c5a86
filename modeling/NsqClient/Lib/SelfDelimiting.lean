import NsqClient.Lib.CodeStream

set_option relaxedAutoImplicit false
set_option autoImplicit false

/-!
# Self-delimiting codes

A parser takes one item off the front of its input.  If it reads every item back from its code,
whatever follows, then it reads every list of items back from its stream.

## Main definitions

* `CodeStream.Reads` — a parser reads an item off the front of its input.
* `CodeStream.firstOf` — one parser, and then another one.
* `CodeStream.parseAll` — parse items until nothing is left.

## Main results

* `CodeStream.parseAll_stream` — the items of a stream are read back.
-/

namespace CodeStream

variable {α β : Type*}

/-- `p` reads `a` off the front of any input that starts with `bs`. -/
def Reads (p : List β → Option (α × List β)) (bs : List β) (a : α) : Prop :=
  ∀ rest, p (bs ++ rest) = some (a, rest)

/-- Try one parser, and then another one. -/
def firstOf (p q : List β → Option (α × List β)) (bs : List β) : Option (α × List β) :=
  (p bs).or (q bs)

/-- What the first parser reads is read. -/
theorem Reads.first {p : List β → Option (α × List β)} {bs : List β} {a : α} (h : Reads p bs a)
    (q : List β → Option (α × List β)) : Reads (firstOf p q) bs a := by
  intro rest
  rw [firstOf, h rest, Option.some_or]

/-- What the second parser reads is read, if the first one refuses it. -/
theorem Reads.second {p q : List β → Option (α × List β)} {bs : List β} {a : α} (h : Reads q bs a)
    (hp : ∀ rest, p (bs ++ rest) = none) : Reads (firstOf p q) bs a := by
  intro rest
  rw [firstOf, hp rest, Option.none_or, h rest]

/-- Parse at most `n` items until nothing is left. -/
def parseUpTo (p : List β → Option (α × List β)) : ℕ → List β → Option (List α)
  | _, [] => some []
  | 0, _ :: _ => none
  | n + 1, b :: bs =>
    match p (b :: bs) with
    | none => none
    | some (a, rest) => (parseUpTo p n rest).map (a :: ·)

/-- Parse items until nothing is left.  An item has at least one symbol, so there are no more of
them than symbols. -/
def parseAll (p : List β → Option (α × List β)) (bs : List β) : Option (List α) :=
  parseUpTo p bs.length bs

/-- Enough items are allowed for: the items of a stream are read back. -/
theorem parseUpTo_stream {p : List β → Option (α × List β)} {code : α → List β} {as : List α}
    (hne : ∀ a ∈ as, code a ≠ []) (hp : ∀ a ∈ as, Reads p (code a) a) {n : ℕ}
    (hn : as.length ≤ n) : parseUpTo p n (stream code as) = some as := by
  induction as generalizing n with
  | nil =>
    rw [stream_nil]
    cases n <;> rfl
  | cons a as ih =>
    obtain ⟨n, rfl⟩ : ∃ m, n = m + 1 := ⟨n - 1, by rw [List.length_cons] at hn; omega⟩
    have ih := ih (fun a' ha' => hne a' (List.mem_cons_of_mem a ha'))
      (fun a' ha' => hp a' (List.mem_cons_of_mem a ha')) (Nat.le_of_succ_le_succ hn)
    have ha := hp a List.mem_cons_self (stream code as)
    rw [stream_cons]
    cases hcode : code a with
    | nil => exact absurd hcode (hne a List.mem_cons_self)
    | cons b bs =>
      rw [hcode, List.cons_append] at ha
      rw [List.cons_append, parseUpTo, ha]
      simp only [ih, Option.map_some]

/-- A stream has at least as many symbols as items. -/
theorem length_le_length_stream {code : α → List β} {as : List α} (hne : ∀ a ∈ as, code a ≠ []) :
    as.length ≤ (stream code as).length := by
  induction as with
  | nil => exact Nat.le_refl 0
  | cons a as ih =>
    have ha : 0 < (code a).length := List.length_pos_iff.mpr (hne a List.mem_cons_self)
    have ih := ih fun a' ha' => hne a' (List.mem_cons_of_mem a ha')
    rw [stream_cons, List.length_append, List.length_cons]
    omega

/-- The items of a stream are read back. -/
theorem parseAll_stream {p : List β → Option (α × List β)} {code : α → List β} {as : List α}
    (hne : ∀ a ∈ as, code a ≠ []) (hp : ∀ a ∈ as, Reads p (code a) a) :
    parseAll p (stream code as) = some as :=
  parseUpTo_stream hne hp (length_le_length_stream hne)

end CodeStream
