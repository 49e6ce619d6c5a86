import Mathlib.Data.List.Basic

set_option relaxedAutoImplicit false
set_option autoImplicit false

/-!
# Streams of coded items

A stream is the concatenation of the codes of a list of items.  A receiver sees a growing
beginning of it, cut at an arbitrary place: some items are wholly there, and the first of the
others is there in part.

## Main definitions

* `CodeStream.stream` — the stream of a list of items.
* `CodeStream.whole` — the items wholly contained in the first `n` symbols.
* `CodeStream.Part` — a beginning, not the whole, of the first of a list of codes.

## Main results

* `CodeStream.exists_part_of_prefix` — a beginning of a stream is the stream of some items, followed
  by a part of the next one.
* `CodeStream.whole_append_part` — these items are the ones wholly contained in it.
* `CodeStream.comparable` — two readings of a stream of self-delimiting items agree.
-/

namespace CodeStream

variable {α β : Type*} (code : α → List β)

/-- The stream of a list of items. -/
def stream (as : List α) : List β := as.flatMap code

/-- The items wholly contained in the first `n` symbols of the stream. -/
def whole : List α → ℕ → List α
  | [], _ => []
  | a :: as, n => if (code a).length ≤ n then a :: whole as (n - (code a).length) else []

/-- `Part code as buf`: `buf` is a beginning, not the whole, of the code of the first item. -/
def Part (as : List α) (buf : List β) : Prop :=
  buf = [] ∨ ∃ a as', as = a :: as' ∧ buf <+: code a ∧ buf.length < (code a).length

/-- The stream of no items. -/
@[simp] theorem stream_nil : stream code [] = [] := rfl

/-- The stream of one item and more. -/
@[simp] theorem stream_cons (a : α) (as : List α) :
    stream code (a :: as) = code a ++ stream code as := by
  simp [stream]

/-- The stream of a concatenation. -/
@[simp] theorem stream_append (as bs : List α) :
    stream code (as ++ bs) = stream code as ++ stream code bs := by
  simp [stream]

variable {code}

/-- A beginning of a stream is the stream of some items, followed by a part of the next one.

**Proof sketch.** Induction on the items.  If the first code is longer than the beginning, the
beginning is a part of it; otherwise it starts with that code, and the induction hypothesis
splits the rest. -/
theorem exists_part_of_prefix {as : List α} {buf : List β} (h : buf <+: stream code as) :
    ∃ ms ts rest, as = ms ++ ts ∧ buf = stream code ms ++ rest ∧ Part code ts rest := by
  induction as generalizing buf with
  | nil =>
    have hnil : buf = [] := List.prefix_nil.mp h
    exact ⟨[], [], [], rfl, by simp [hnil], .inl rfl⟩
  | cons a as ih =>
    rw [stream_cons] at h
    rcases Nat.lt_or_ge buf.length (code a).length with hlt | hge
    · have hpre : buf <+: code a :=
        List.prefix_of_prefix_length_le h (List.prefix_append _ _) (Nat.le_of_lt hlt)
      exact ⟨[], a :: as, buf, rfl, by simp, .inr ⟨a, as, rfl, hpre, hlt⟩⟩
    · obtain ⟨buf', rfl⟩ : code a <+: buf :=
        List.prefix_of_prefix_length_le (List.prefix_append _ _) h hge
      have h' : buf' <+: stream code as := (List.prefix_append_right_inj _).mp h
      obtain ⟨ms, ts, rest, rfl, rfl, hpart⟩ := ih h'
      exact ⟨a :: ms, ts, rest, rfl, by simp, hpart⟩

/-- No item is wholly contained in a part of the first one. -/
theorem whole_of_part (hne : ∀ a, code a ≠ []) {as : List α} {buf : List β}
    (h : Part code as buf) : whole code as buf.length = [] := by
  rcases h with rfl | ⟨a, as', rfl, -, hlt⟩
  · cases as with
    | nil => rfl
    | cons a as => simp [whole, hne]
  · simp [whole, Nat.not_le.mpr hlt]

/-- Items that fit are wholly contained. -/
theorem whole_append (ms ts : List α) (n : ℕ) :
    whole code (ms ++ ts) ((stream code ms).length + n) = ms ++ whole code ts n := by
  induction ms with
  | nil => simp
  | cons a ms ih =>
    have hle : (code a).length ≤ (stream code (a :: ms)).length + n := by
      rw [stream_cons, List.length_append]
      omega
    have hsub : (stream code (a :: ms)).length + n - (code a).length =
        (stream code ms).length + n := by
      rw [stream_cons, List.length_append]
      omega
    simp only [List.cons_append, whole, if_pos hle, hsub, ih]

/-- The items wholly contained in a stream and a part of the next item. -/
theorem whole_append_part (hne : ∀ a, code a ≠ []) (ms : List α) {ts : List α} {rest : List β}
    (h : Part code ts rest) :
    whole code (ms ++ ts) ((stream code ms).length + rest.length) = ms := by
  rw [whole_append, whole_of_part hne h, List.append_nil]

/-- The whole stream wholly contains its items. -/
theorem whole_stream (as : List α) : whole code as (stream code as).length = as := by
  have h := @whole_append _ _ code as [] 0
  simpa [whole] using h

/-- If the items are self-delimiting, what two readings of the same symbols found is the same as far
as both came. -/
theorem comparable {P : α → Prop} (hinj : ∀ {a b : α} {rest rest' : List β}, P a → P b →
      code a ++ rest = code b ++ rest' → a = b ∧ rest = rest') {as bs : List α}
    {rest rest' : List β} (has : ∀ a ∈ as, P a) (hbs : ∀ b ∈ bs, P b)
    (h : stream code as ++ rest = stream code bs ++ rest') : as <+: bs ∨ bs <+: as := by
  induction as generalizing bs with
  | nil => exact .inl List.nil_prefix
  | cons a as ih =>
    cases bs with
    | nil => exact .inr List.nil_prefix
    | cons b bs =>
      rw [stream_cons, stream_cons, List.append_assoc, List.append_assoc] at h
      obtain ⟨rfl, hrest⟩ := hinj (has a List.mem_cons_self) (hbs b List.mem_cons_self) h
      rw [List.prefix_cons_inj, List.prefix_cons_inj]
      exact ih (fun a' ha' => has a' (List.mem_cons_of_mem a ha'))
        (fun b' hb' => hbs b' (List.mem_cons_of_mem a hb')) hrest

end CodeStream
