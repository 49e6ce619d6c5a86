import Mathlib.Data.List.Chain
import Mathlib.Tactic.Common
import Mathlib.Data.Nat.Notation

set_option relaxedAutoImplicit false
set_option autoImplicit false

/-!
# Connecting

`connect` (`conn.rs`) resolves an address and tries to open a socket until an attempt succeeds.
Every attempt takes one more of the resolved addresses, and every failure asks the backoff for one
more delay; both may come to an end.

The system and the backoff are parameters: what the calls of the `n`-th attempt answer, and the
`n`-th delay.  The loop keeps a log of its attempts and its delays, which the source does not have.

## Main definitions

* `NsqClient.Network` — the answers of the system, and the backoff.
* `NsqClient.Network.socketConnect`, `NsqClient.Network.connect` — the source.
* `NsqClient.Network.Retries` — an attempt that succeeds is reached, with a delay after every
  failure.

## Main results

* `NsqClient.Network.retries_iff` — how many failures `connect` copes with.
-/

namespace NsqClient

/-- What the system answers to the calls of one attempt: whether each of them succeeds. -/
structure Answers where
  newV4 : Bool
  bind : Bool
  toTcpStream : Bool
  connectStream : Bool
  setRecvBufferSize : UInt64 → Bool

/-- The system and the backoff, the resolved addresses being of type `α`. -/
structure Network (α : Type) where
  /-- `addr.to_socket_addrs()`. -/
  toSocketAddrs : Option (List α)
  /-- `cfg!(windows)`. -/
  windows : Bool
  /-- The answers in an attempt, by its number and its address. -/
  answers : ℕ → α → Answers
  /-- `backoff.next_backoff()`, by the number of calls before. -/
  nextBackoff : ℕ → Option ℕ

/-- What `connect` does. -/
inductive ConnectEvent (α : Type) where
  | tried (addr : α)
  | slept (timeout : ℕ)
  deriving DecidableEq

/-- How `connect` ends: it returns the stream, it panics, or it exits the process. -/
inductive ConnectEnd (α : Type) where
  /-- The stream to this address is returned. -/
  | connected (addr : α)
  /-- `addrs.next().expect(..)` after the last address. -/
  | noAddress
  /-- No socket can be created. -/
  | noSocket
  /-- The size of the receive buffer cannot be set. -/
  | noBufferSize
  /-- The address cannot be resolved. -/
  | exited
  deriving DecidableEq

namespace Network

variable {α : Type}

/-- `socket_connect`: whether the connection succeeds; `none` if it panics. -/
def socketConnect (windows : Bool) (a : Answers) : Option Bool :=
  if !a.newV4 then none
  else if windows && !a.bind then none
  else if !a.toTcpStream then none
  else some a.connectStream

/-- The loop of `connect`, from the `n`-th attempt on, with the addresses that are left. -/
def connectLoop (net : Network α) (outputBufferSize : UInt64) :
    ℕ → List α → List (ConnectEvent α) × ConnectEnd α
  | _, [] => ([], .noAddress)
  | n, addr :: addrs =>
    match socketConnect net.windows (net.answers n addr) with
    | none => ([.tried addr], .noSocket)
    | some true =>
      if (net.answers n addr).setRecvBufferSize outputBufferSize then
        ([.tried addr], .connected addr)
      else ([.tried addr], .noBufferSize)
    | some false =>
      let rest := connectLoop net outputBufferSize (n + 1) addrs
      match net.nextBackoff n with
      | some timeout => (.tried addr :: .slept timeout :: rest.1, rest.2)
      | none => (.tried addr :: rest.1, rest.2)

/-- `connect`. -/
def connect (net : Network α) (outputBufferSize : UInt64) :
    List (ConnectEvent α) × ConnectEnd α :=
  match net.toSocketAddrs with
  | none => ([], .exited)
  | some addrs => net.connectLoop outputBufferSize 0 addrs

/-! ## Attempts -/

/-- The `n`-th attempt fails to connect. -/
def Fails (net : Network α) (n : ℕ) : Prop :=
  ∀ addr, socketConnect net.windows (net.answers n addr) = some false

/-- The `n`-th attempt would succeed. -/
def Succeeds (net : Network α) (outputBufferSize : UInt64) (n : ℕ) : Prop :=
  ∀ addr, socketConnect net.windows (net.answers n addr) = some true ∧
    (net.answers n addr).setRecvBufferSize outputBufferSize = true

/-- Between two attempts there is a delay. -/
def Spaced (events : List (ConnectEvent α)) : Prop :=
  events.IsChain fun e e' => ∀ addr addr', ¬ (e = .tried addr ∧ e' = .tried addr')

/-- `connect` returns a stream, and between any two attempts there was a delay. -/
def Retries (net : Network α) (outputBufferSize : UInt64) : Prop :=
  ∃ events addr, net.connect outputBufferSize = (events, .connected addr) ∧ Spaced events

/-- From the `n`-th attempt on, the loop returns a stream, and between any two attempts there is a
delay. -/
def Reached (net : Network α) (outputBufferSize : UInt64) (n : ℕ) (addrs : List α) : Prop :=
  ∃ events addr, net.connectLoop outputBufferSize n addrs = (events, .connected addr) ∧
    Spaced events

/-- An attempt, a delay, and more. -/
theorem spaced_slept {addr : α} {timeout : ℕ} {events : List (ConnectEvent α)} :
    Spaced (.tried addr :: .slept timeout :: events) ↔ Spaced events := by
  unfold Spaced
  constructor
  · intro h
    exact h.tail.tail
  · intro h
    refine .cons_cons (fun _ _ => by simp) ?_
    cases events with
    | nil => exact .singleton _
    | cons e events => exact .cons_cons (fun _ _ => by simp) h

/-- An attempt without a delay, and more. -/
theorem not_spaced_tried {addr addr' : α} {events : List (ConnectEvent α)} :
    ¬ Spaced (.tried addr :: .tried addr' :: events) := by
  intro h
  cases h with
  | cons_cons h _ => exact h addr addr' ⟨rfl, rfl⟩

/-- The loop starts with an attempt. -/
theorem exists_tried (net : Network α) (outputBufferSize : UInt64) (n : ℕ) (addr : α)
    (addrs : List α) : ∃ events,
      (net.connectLoop outputBufferSize n (addr :: addrs)).1 = .tried addr :: events := by
  rw [connectLoop]
  split
  · exact ⟨_, rfl⟩
  · split <;> exact ⟨_, rfl⟩
  · dsimp only
    split <;> exact ⟨_, rfl⟩

/-! ## Retrying -/

/-- One more failure, with a delay after it. -/
theorem reached_slept {net : Network α} {outputBufferSize : UInt64} {n timeout : ℕ} {addr : α}
    (addrs : List α) (hfail : socketConnect net.windows (net.answers n addr) = some false)
    (hdelay : net.nextBackoff n = some timeout) :
    net.Reached outputBufferSize n (addr :: addrs) ↔
      net.Reached outputBufferSize (n + 1) addrs := by
  have hloop : net.connectLoop outputBufferSize n (addr :: addrs) =
      (.tried addr :: .slept timeout :: (net.connectLoop outputBufferSize (n + 1) addrs).1,
        (net.connectLoop outputBufferSize (n + 1) addrs).2) := by
    rw [connectLoop, hfail]
    simp only [hdelay]
  unfold Reached
  rw [hloop]
  constructor
  · rintro ⟨events, addr', hend, hspaced⟩
    rw [Prod.mk.injEq] at hend
    obtain ⟨rfl, hend⟩ := hend
    exact ⟨_, addr', Prod.ext rfl hend, spaced_slept.mp hspaced⟩
  · rintro ⟨events, addr', hend, hspaced⟩
    refine ⟨_, addr', Prod.ext rfl (by rw [hend]), ?_⟩
    rw [hend]
    exact spaced_slept.mpr hspaced

/-- One more failure, without a delay after it. -/
theorem not_reached_tried {net : Network α} {outputBufferSize : UInt64} {n : ℕ} {addr : α}
    (addrs : List α) (hfail : socketConnect net.windows (net.answers n addr) = some false)
    (hdelay : net.nextBackoff n = none) :
    ¬ net.Reached outputBufferSize n (addr :: addrs) := by
  have hloop : net.connectLoop outputBufferSize n (addr :: addrs) =
      (.tried addr :: (net.connectLoop outputBufferSize (n + 1) addrs).1,
        (net.connectLoop outputBufferSize (n + 1) addrs).2) := by
    rw [connectLoop, hfail]
    simp only [hdelay]
  rintro ⟨events, addr', hend, hspaced⟩
  rw [hloop] at hend
  cases addrs with
  | nil => cases hend
  | cons addr'' addrs =>
    obtain ⟨events', hevents⟩ := net.exists_tried outputBufferSize (n + 1) addr'' addrs
    rw [hevents, Prod.mk.injEq] at hend
    rw [← hend.1] at hspaced
    exact not_spaced_tried hspaced

/-- The loop reaches the attempt that would succeed if and only if the addresses suffice, and the
backoff has a delay for each failure before it.

**Proof sketch.** Induction on the number of failures: a failure takes one address and one delay;
without a delay the next attempt follows immediately, and without a next address the loop
panics. -/
theorem reached_iff {net : Network α} {outputBufferSize : UInt64} {k n : ℕ} {addrs : List α}
    (hfails : ∀ i < k, net.Fails (n + i)) (hsucceeds : net.Succeeds outputBufferSize (n + k)) :
    net.Reached outputBufferSize n addrs ↔
      k < addrs.length ∧ ∀ i < k, (net.nextBackoff (n + i)).isSome = true := by
  induction k generalizing n addrs with
  | zero =>
    cases addrs with
    | nil => simp [Reached, connectLoop]
    | cons addr addrs =>
      obtain ⟨hconnect, hsize⟩ := hsucceeds addr
      rw [Nat.add_zero] at hconnect hsize
      refine ⟨fun _ => ⟨by simp, by simp⟩, fun _ => ⟨[.tried addr], addr, ?_, .singleton _⟩⟩
      simp only [connectLoop, hconnect, hsize, if_true]
  | succ k ih =>
    cases addrs with
    | nil => simp [Reached, connectLoop]
    | cons addr addrs =>
      have hshift : ∀ i, n + 1 + i = n + (i + 1) := by omega
      have hfail : socketConnect net.windows (net.answers n addr) = some false :=
        hfails 0 (by omega) addr
      cases hdelay : net.nextBackoff n with
      | some timeout =>
        rw [reached_slept addrs hfail hdelay, ih (fun i hi => by
          rw [hshift]
          exact hfails (i + 1) (by omega)) (by rwa [hshift]), List.length_cons]
        simp only [hshift]
        constructor
        · rintro ⟨hlen, hdelays⟩
          refine ⟨by omega, fun i hi => ?_⟩
          cases i with
          | zero => simp [hdelay]
          | succ i => exact hdelays i (by omega)
        · rintro ⟨hlen, hdelays⟩
          exact ⟨by omega, fun i hi => hdelays (i + 1) (by omega)⟩
      | none =>
        refine ⟨fun h => absurd h (not_reached_tried addrs hfail hdelay), ?_⟩
        rintro ⟨-, hdelays⟩
        have hsome := hdelays 0 (by omega)
        rw [Nat.add_zero, hdelay] at hsome
        cases hsome

/-- For every list of resolved addresses, every number of failures, and an attempt after them that
would succeed: `connect` goes on with a delay after each failure, and returns the stream, if and
only if there are fewer failures than addresses, and the backoff has a delay for each of them. -/
theorem retries_iff {net : Network α} {outputBufferSize : UInt64} {k : ℕ} {addrs : List α}
    (haddrs : net.toSocketAddrs = some addrs) (hfails : ∀ i < k, net.Fails i)
    (hsucceeds : net.Succeeds outputBufferSize k) :
    net.Retries outputBufferSize ↔
      k < addrs.length ∧ ∀ i < k, (net.nextBackoff i).isSome = true := by
  have hloop : net.connect outputBufferSize = net.connectLoop outputBufferSize 0 addrs := by
    rw [connect, haddrs]
  have hfails' : ∀ i < k, net.Fails (0 + i) := by simpa using hfails
  have hsucceeds' : net.Succeeds outputBufferSize (0 + k) := by rwa [Nat.zero_add]
  have hreached := @reached_iff _ net outputBufferSize k 0 addrs hfails' hsucceeds'
  simp only [Nat.zero_add] at hreached
  rw [← hreached, Retries, hloop, Reached]

/-- A network with these addresses, on which the first attempts fail, and with these delays. -/
def flaky (addrs : List α) (failures : ℕ) (delays : ℕ → Option ℕ) : Network α where
  toSocketAddrs := some addrs
  windows := false
  answers n _ := ⟨true, true, true, failures ≤ n, fun _ => true⟩
  nextBackoff := delays

theorem fails_flaky {addrs : List α} {failures : ℕ} {delays : ℕ → Option ℕ} {n : ℕ}
    (h : n < failures) : (flaky addrs failures delays).Fails n := by
  intro addr
  simp [flaky, socketConnect, h]

theorem succeeds_flaky (addrs : List α) (failures : ℕ) (delays : ℕ → Option ℕ) :
    (flaky addrs failures delays).Succeeds 16384 failures := by
  intro addr
  simp [flaky, socketConnect]

/-- Two addresses, and one failure. -/
theorem retries_iff_two : (flaky [1, 2] 1 fun _ => some 500).Retries 16384 :=
  (retries_iff rfl (fun _ hi => fails_flaky hi) (succeeds_flaky _ _ _)).mpr
    ⟨by decide, by simp [flaky]⟩

/-- One address, and one failure: the loop panics.  Two addresses, one failure, and a backoff that
has run out: the second attempt follows without a delay. -/
theorem not_retries :
    (flaky [1] 1 fun _ => some 500).connect 16384 = ([.tried 1, .slept 500], .noAddress) ∧
    ¬ (flaky [1] 1 fun _ => some 500).Retries 16384 ∧
    (flaky [1, 2] 1 fun _ => none).connect 16384 = ([.tried 1, .tried 2], .connected 2) ∧
    ¬ (flaky [1, 2] 1 fun _ => none).Retries 16384 := by
  refine ⟨rfl, ?_, rfl, ?_⟩
  · rintro ⟨events, addr, hend, -⟩
    cases hend
  · rintro ⟨events, addr, hend, hspaced⟩
    cases hend
    exact not_spaced_tried hspaced

end Network

end NsqClient
