import Mathlib.Algebra.Ring.Nat
import Mathlib.Data.Nat.Notation
import Mathlib.Tactic.TypeStar
import NsqClient.Lib.Machine

set_option relaxedAutoImplicit false
set_option autoImplicit false

/-!
# Notes, meters and faults

Three ways to say something about a whole run of a machine and not only about the state it ends in.

A *note* is kept beside the state: every step adds to it, from the state it is taken in and its
label.  The machine does not see the note, so every run has one; but a condition on the run may
mention it, and so may an invariant.

A *meter* is a number that a state has.  If the steps that count lower it, and it is known what a
step may add to it, then a run has no more steps that count than the meter showed at its start and
was raised by.

A *fault* is what a state has for good.  If it is known which steps bring it about, then a run has
come to it exactly if it has such a step.

## Main definitions

* `Machine.noting` — a machine with a note.
* `Machine.Tripped` — a run has a step of a kind.

## Main results

* `Machine.Run.forget` — a run with a note is a run.
* `Machine.Run.count_le_feed` — how many steps that count a run has.
* `Machine.Run.fault_iff` — a run has come to a fault exactly if one of its steps brought it about.
-/

namespace Machine

variable {σ τ l : Type*} {step : σ → l → Option σ} {ok : σ → l → Prop} {note : σ → l → τ → τ}

/-! ## Notes -/

/-- The machine with a note. -/
def noting (step : σ → l → Option σ) (note : σ → l → τ → τ) (x : σ × τ) (a : l) : Option (σ × τ) :=
  (step x.1 a).map fun s => (s, note x.1 a x.2)

/-- A step with a note. -/
theorem noting_eq_some {x y : σ × τ} {a : l} :
    noting step note x a = some y ↔ step x.1 a = some y.1 ∧ y.2 = note x.1 a x.2 := by
  simp only [noting, Option.map_eq_some_iff]
  constructor
  · rintro ⟨s, hs, rfl⟩
    exact ⟨hs, rfl⟩
  · rintro ⟨hs, hnote⟩
    exact ⟨y.1, hs, by rw [← hnote]⟩

/-- A run with a note is a run, if what its condition says of the states and labels is enough. -/
theorem Run.forget {ok' : σ × τ → l → Prop} (himp : ∀ x a, ok' x a → ok x.1 a) {x y : σ × τ}
    {ls : List l} (h : Run (noting step note) ok' x ls y) : Run step ok x.1 ls y.1 := by
  induction h with
  | nil => exact .nil
  | snoc _ hok hu ih => exact .snoc ih (himp _ _ hok) (noting_eq_some.mp hu).1

/-! ## Meters -/

/-- If every step that counts takes one from the meter, and a step adds to it no more than it costs
and feeds, then a run has no more steps that count than the meter showed and was raised by. -/
theorem Run.count_le_feed (I : σ → Prop) (meter feed : σ → ℕ) (counts : l → Bool) (cost : l → ℕ)
    {s t : σ} {ls : List l} (hs : I s) (hI : ∀ s a t, I s → ok s a → step s a = some t → I t)
    (hmeter : ∀ s a t, I s → ok s a → step s a = some t →
      meter t + feed s + (if counts a then 1 else 0) ≤ meter s + feed t + cost a)
    (h : Run step ok s ls t) :
    meter t + feed s + ls.countP counts ≤ meter s + feed t + (ls.map cost).sum := by
  have hboth : I t ∧
      meter t + feed s + ls.countP counts ≤ meter s + feed t + (ls.map cost).sum := by
    induction h with
    | nil => exact ⟨hs, Nat.le_refl _⟩
    | @snoc ls t u a _ hok hu ih =>
      obtain ⟨ht, hle⟩ := ih
      have hone := hmeter _ _ _ ht hok hu
      refine ⟨hI _ _ _ ht hok hu, ?_⟩
      rw [List.countP_append, List.countP_singleton, List.map_append, List.sum_append_nat,
        List.map_singleton, List.sum_cons, List.sum_nil]
      omega
  exact hboth.2

/-- The same, where nothing feeds the meter and some steps add `k` at most. -/
theorem Run.count_le (I : σ → Prop) (meter : σ → ℕ) (counts raises : l → Bool) (k : ℕ)
    {s t : σ} {ls : List l} (hs : I s) (hI : ∀ s a t, I s → ok s a → step s a = some t → I t)
    (hmeter : ∀ s a t, I s → ok s a → step s a = some t →
      meter t + (if counts a then 1 else 0) ≤ meter s + if raises a then k else 0)
    (h : Run step ok s ls t) :
    meter t + ls.countP counts ≤ meter s + k * ls.countP raises := by
  have hsum : (ls.map fun a => if raises a then k else 0).sum = k * ls.countP raises := by
    clear h
    induction ls with
    | nil => rfl
    | cons a ls ih =>
      rw [List.map_cons, List.sum_cons, ih, List.countP_cons, Nat.mul_add, Nat.add_comm]
      split_ifs <;> simp
  have hle := h.count_le_feed I meter (fun _ => 0) counts (fun a => if raises a then k else 0) hs hI
    hmeter
  rwa [hsum] at hle

/-! ## Counters -/

/-- If no step lowers a number, and at the end of a run it is what it was at the start, then no step
of the run changed it. -/
theorem Run.constant (q : σ → ℕ) (hq : ∀ s a t, step s a = some t → q s ≤ q t) {s t : σ}
    {ls : List l} (h : Run step ok s ls t) (hsame : q t = q s) :
    Run step (fun s a => ok s a ∧ ∀ t, step s a = some t → q t = q s) s ls t := by
  induction h with
  | nil => exact .nil
  | @snoc ls t u a hrun hok hu ih =>
    have hbefore : q s ≤ q t :=
      hrun.invariant (fun t => q s ≤ q t) (Nat.le_refl _) fun _ _ _ hle _ hstep =>
        Nat.le_trans hle (hq _ _ _ hstep)
    have hlast := hq _ _ _ hu
    refine .snoc (ih (by omega)) ⟨hok, fun v hv => ?_⟩ hu
    rw [hu] at hv
    cases hv
    omega

/-- What the states of a run keep, and what the labels of such steps have. -/
theorem Run.forall_label (I : σ → Prop) (p : l → Prop) {s t : σ} {ls : List l} (hs : I s)
    (hstep : ∀ s a t, I s → ok s a → step s a = some t → I t ∧ p a) (h : Run step ok s ls t) :
    I t ∧ ∀ a ∈ ls, p a := by
  induction h with
  | nil => exact ⟨hs, by simp⟩
  | snoc _ hok hu ih =>
    obtain ⟨ht, hlabels⟩ := ih
    obtain ⟨hu, ha⟩ := hstep _ _ _ ht hok hu
    refine ⟨hu, fun b hb => ?_⟩
    rcases List.mem_append.mp hb with hb | hb
    · exact hlabels b hb
    · rwa [List.mem_singleton.mp hb]

/-! ## Faults -/

/-- One of the labels is taken in a state in which it is one of the given steps. -/
def Tripped (step : σ → l → Option σ) (ok : σ → l → Prop) (trips : σ → l → Prop) (s : σ)
    (ls : List l) : Prop :=
  ∃ pre a post t, ls = pre ++ a :: post ∧ Run step ok s pre t ∧ ok t a ∧ trips t a

/-- What no step undoes, and certain steps bring about, a run has come to exactly if it has one of
these steps. -/
theorem Run.fault_iff {F : σ → Prop} {trips : σ → l → Prop} {s u : σ} {ls : List l}
    (hs : ¬ F s) (hstay : ∀ {t a u}, F t → step t a = some u → F u)
    (htrips : ∀ {pre t a u}, Run step ok s pre t → ok t a → ¬ F t → step t a = some u →
      (F u ↔ trips t a))
    (h : Run step ok s ls u) : F u ↔ Tripped step ok trips s ls := by
  induction h with
  | nil =>
    refine ⟨fun hfault => absurd hfault hs, ?_⟩
    rintro ⟨pre, a, post, t, hls, -⟩
    simp at hls
  | @snoc ls t u a hrun hok hu ih =>
    constructor
    · intro hfault
      by_cases hbefore : F t
      · obtain ⟨pre, b, post, v, rfl, hpre, hv⟩ := ih.mp hbefore
        exact ⟨pre, b, post ++ [a], v, by simp, hpre, hv⟩
      · exact ⟨ls, a, [], t, rfl, hrun, hok, (htrips hrun hok hbefore hu).mp hfault⟩
    · rintro ⟨pre, b, post, v, hls, hpre, hv⟩
      rcases List.eq_nil_or_concat post with rfl | ⟨post, c, rfl⟩
      · -- the step is the last one, and the state before it is known
        obtain ⟨rfl, hlast⟩ := List.append_inj' hls rfl
        cases hlast
        obtain ⟨rfl, -⟩ := hrun.and hpre
        by_cases hbefore : F t
        · exact hstay hbefore hu
        · exact (htrips hrun hok hbefore hu).mpr hv.2
      · have hsplit : ls ++ [a] = (pre ++ b :: post) ++ [c] := by simpa using hls
        obtain ⟨rfl, -⟩ := List.append_inj' hsplit rfl
        exact hstay (ih.mpr ⟨pre, b, post, v, rfl, hpre, hv⟩) hu

end Machine
