import Mathlib.Tactic.SplitIfs
import Patchwork.Fetch.Source

/-!
# When a fetch is tried again

A call is followed by another exactly if it failed for a passing reason, attempts are left and the
fetch has not been cancelled by then (`Source.Retries`). A fetch stops at the first call that is not
followed (`attempt_stops`), and its result is what came of that call, unless only the cancellation
kept it from being followed (`fetch_isRetried`).
-/
namespace Patchwork.Fetch.Source

section

variable (s : Source) (revision : String) (cancelled : Bool)

def cancelledAfter : Nat → Bool
  | 0 => cancelled
  | n + 1 => cancelledAfter n || (s.reply (n + 1) revision (cancelledAfter n)).cancels

def outcomeOf (n : Nat) : Except FetchError Snapshot :=
  (s.reply n revision (s.cancelledAfter revision cancelled (n - 1))).outcome

def failsForNow (n : Nat) : Bool :=
  match s.outcomeOf revision cancelled n with
  | .ok _ => false
  | .error e => e.isTransient

/-- Whether the `n`-th of at most `limit` calls is followed by another. -/
def Retries (limit n : Nat) : Prop :=
  s.failsForNow revision cancelled n = true ∧ n < limit ∧
    s.cancelledAfter revision cancelled n = false

/-- What a fetch comes to whose last call is the `n`-th. -/
def reportAt (limit n : Nat) : Report where
  calls := n
  outcome := if s.failsForNow revision cancelled n = true ∧ n < limit then .error .cancelled
    else s.outcomeOf revision cancelled n
  cancelled := s.cancelledAfter revision cancelled n

end

variable {s : Source} {revision : String} {cancelled : Bool} {call n left limit : Nat}

/-! ## One call -/

theorem attempt_of_ok {snapshot : Snapshot}
    (h : (s.reply call revision cancelled).outcome = .ok snapshot) :
    s.attempt revision call cancelled left =
      ⟨call, .ok snapshot, cancelled || (s.reply call revision cancelled).cancels⟩ := by
  unfold attempt
  cases left <;> simp [h]

theorem attempt_of_error {e : FetchError}
    (h : (s.reply call revision cancelled).outcome = .error e) :
    s.attempt revision call cancelled (left + 1) =
      if !e.isTransient then ⟨call, .error e,
        cancelled || (s.reply call revision cancelled).cancels⟩
      else if cancelled || (s.reply call revision cancelled).cancels then
        ⟨call, .error .cancelled, cancelled || (s.reply call revision cancelled).cancels⟩
      else s.attempt revision (call + 1)
        (cancelled || (s.reply call revision cancelled).cancels) left := by
  rw [attempt]
  exact h

theorem outcomeOf_succ (n : Nat) : s.outcomeOf revision cancelled (n + 1) =
    (s.reply (n + 1) revision (s.cancelledAfter revision cancelled n)).outcome := rfl

theorem failsForNow_iff : s.failsForNow revision cancelled n = true ↔
    ∃ e, s.outcomeOf revision cancelled n = .error e ∧ e.isTransient = true := by
  unfold failsForNow
  cases s.outcomeOf revision cancelled n <;> simp

theorem attempt_of_retries (h : s.Retries revision cancelled limit (n + 1)) :
    s.attempt revision (n + 1) (s.cancelledAfter revision cancelled n) (left + 1) =
      s.attempt revision (n + 2) (s.cancelledAfter revision cancelled (n + 1)) left := by
  obtain ⟨hfails, -, hcancelled⟩ := h
  obtain ⟨e, he, htransient⟩ := failsForNow_iff.1 hfails
  rw [outcomeOf_succ] at he
  rw [attempt_of_error he, ← cancelledAfter, hcancelled, htransient]
  rfl

theorem attempt_of_not_retries (h : ¬ s.Retries revision cancelled (n + 1 + left) (n + 1)) :
    s.attempt revision (n + 1) (s.cancelledAfter revision cancelled n) left =
      s.reportAt revision cancelled (n + 1 + left) (n + 1) := by
  have hn : n + 1 < n + 1 + (left + 1) := by omega
  unfold reportAt failsForNow
  unfold Retries failsForNow at h
  cases houtcome : s.outcomeOf revision cancelled (n + 1) with
  | ok snapshot =>
    rw [outcomeOf_succ] at houtcome
    rw [attempt_of_ok houtcome, ← cancelledAfter]
    simp
  | error e =>
    rw [houtcome] at h
    rw [outcomeOf_succ] at houtcome
    cases left with
    | zero => simp [attempt, houtcome, cancelledAfter]
    | succ left =>
      rw [attempt_of_error houtcome, ← cancelledAfter]
      cases htransient : e.isTransient with
      | false => simp [htransient]
      | true =>
        have hcancelled : s.cancelledAfter revision cancelled (n + 1) = true := by
          simpa [htransient] using h
        simp [htransient, hcancelled]

/-! ## All calls -/

/-- A fetch stops at the first call that is not followed by another. -/
theorem attempt_stops (left n : Nat) : ∃ last, n < last ∧ last ≤ n + 1 + left ∧
    (∀ m, n < m → m < last → s.Retries revision cancelled (n + 1 + left) m) ∧
    ¬ s.Retries revision cancelled (n + 1 + left) last ∧
    s.attempt revision (n + 1) (s.cancelledAfter revision cancelled n) left =
      s.reportAt revision cancelled (n + 1 + left) last := by
  induction left generalizing n with
  | zero =>
    have hlast : ¬ s.Retries revision cancelled (n + 1) (n + 1) := fun h => Nat.lt_irrefl _ h.2.1
    exact ⟨n + 1, by omega, by omega, by omega, hlast, attempt_of_not_retries hlast⟩
  | succ left ih =>
    by_cases hfirst : s.Retries revision cancelled (n + 1 + (left + 1)) (n + 1)
    · obtain ⟨last, hn, hle, hfollowed, hlast, heq⟩ := ih (n + 1)
      have hlimit : n + 1 + 1 + left = n + 1 + (left + 1) := by omega
      rw [hlimit] at hle hfollowed hlast heq
      refine ⟨last, by omega, hle, fun m hm hlt => ?_, hlast, (attempt_of_retries hfirst).trans heq⟩
      rcases Nat.lt_or_eq_of_le hm with hm | rfl
      · exact hfollowed m hm hlt
      · exact hfirst
    · exact ⟨n + 1, by omega, by omega, by omega, hfirst, attempt_of_not_retries hfirst⟩

/-- What a fetch reports if it is retried by the rules. -/
structure IsRetried (s : Source) (revision : String) (cancelled : Bool) (limit : Nat)
  (r : Report) : Prop where
  one_le_calls : 1 ≤ r.calls
  calls_le : r.calls ≤ limit
  /-- Another call is made exactly after one that failed for a passing reason, with calls left and
  the fetch not cancelled. -/
  followed_iff : ∀ n, 1 ≤ n →
    (n + 1 ≤ r.calls ↔ n ≤ r.calls ∧ s.failsForNow revision cancelled n = true ∧ n < limit ∧
    s.cancelledAfter revision cancelled n = false)
  /-- A call that the cancellation alone keeps from being followed makes a fetch that was
  cancelled. -/
  outcome_of_cancelled : ∀ n, 1 ≤ n → n ≤ r.calls → s.failsForNow revision cancelled n = true →
    n < limit → s.cancelledAfter revision cancelled n = true → r.outcome = .error .cancelled
  /-- In every other case the result is that of the last call. -/
  outcome_of_last : ¬ (s.failsForNow revision cancelled r.calls = true ∧ r.calls < limit ∧
    s.cancelledAfter revision cancelled r.calls = true) →
      r.outcome = s.outcomeOf revision cancelled r.calls
  /-- A success is the result, and nothing is called after it. -/
  of_ok : ∀ n snapshot, 1 ≤ n → n ≤ r.calls → s.outcomeOf revision cancelled n = .ok snapshot →
    n = r.calls ∧ r.outcome = .ok snapshot
  /-- So is a failure that does not pass. -/
  of_error : ∀ n e, 1 ≤ n → n ≤ r.calls → s.outcomeOf revision cancelled n = .error e →
    e.isTransient = false → n = r.calls ∧ r.outcome = .error e
  cancelled_eq : r.cancelled = s.cancelledAfter revision cancelled r.calls

/-- A fetch is retried by the rules if it stops at the first call that is not followed by
another. -/
theorem isRetried_reportAt {last : Nat} (hpos : 1 ≤ last) (hle : last ≤ limit)
    (hfollowed : ∀ m, 1 ≤ m → m < last → s.Retries revision cancelled limit m)
    (hlast : ¬ s.Retries revision cancelled limit last) :
    IsRetried s revision cancelled limit (s.reportAt revision cancelled limit last) := by
  have heq : ∀ n, 1 ≤ n → n ≤ last → ¬ s.Retries revision cancelled limit n → n = last := by
    intro n hn hle h
    exact Nat.le_antisymm hle (Nat.le_of_not_lt fun hlt => h (hfollowed n hn hlt))
  refine ⟨hpos, hle, fun n hn => ⟨fun h => ?_, fun ⟨h, hretries⟩ => ?_⟩,
    fun n hn h hfails hlimit hcancelled => ?_, fun h => ?_, fun n snapshot hn h hok =>
    ?_, fun n e hn h herror htransient => ?_, rfl⟩
  · exact ⟨Nat.le_of_succ_le h, hfollowed n hn h⟩
  · refine Nat.lt_of_le_of_ne h ?_
    rintro rfl
    exact hlast hretries
  · obtain rfl := heq n hn h (by simp [Retries, hcancelled])
    exact if_pos ⟨hfails, hlimit⟩
  · refine if_neg fun ⟨hfails, hlimit⟩ => ?_
    cases hc : s.cancelledAfter revision cancelled last with
    | false => exact hlast ⟨hfails, hlimit, hc⟩
    | true => exact h ⟨hfails, hlimit, hc⟩
  · have hfails : s.failsForNow revision cancelled n = false := by simp [failsForNow, hok]
    obtain rfl := heq n hn h (by simp [Retries, hfails])
    exact ⟨rfl, by simp [reportAt, hfails, hok]⟩
  · have hfails : s.failsForNow revision cancelled n = false := by
      simp [failsForNow, herror, htransient]
    obtain rfl := heq n hn h (by simp [Retries, hfails])
    exact ⟨rfl, by simp [reportAt, hfails, herror]⟩

/-- A fetch for what names no revision makes no call. Any other is retried by the rules. -/
theorem fetch_isRetried (s : Source) (revision : String) (attempts : Nat) (cancelled : Bool) :
    if isRevision revision then
      IsRetried s revision cancelled (max 1 attempts) (s.fetch revision attempts cancelled)
    else s.fetch revision attempts cancelled =
      ⟨0, .error (.invalidRevision revision), cancelled⟩ := by
  unfold fetch
  split_ifs with hrevision
  · obtain ⟨last, hpos, hle, hfollowed, hlast, heq⟩ :=
      @attempt_stops s revision cancelled (attempts - 1) 0
    have hlimit : 0 + 1 + (attempts - 1) = max 1 attempts := by omega
    rw [hlimit] at hle hfollowed hlast heq
    have hreport : s.attempt revision 1 cancelled (attempts - 1) =
      s.reportAt revision cancelled (max 1 attempts) last := heq
    rw [hreport]
    exact isRetried_reportAt hpos hle hfollowed hlast
  · rfl

/-- A cancellation during the last attempt does not hide what came of it; during an earlier one it
does. -/
example :
    let s : Source := ⟨"remote", fun _ _ _ => ⟨.error (.io "reset"), true⟩⟩
    s.fetch "main" 1 false = ⟨1, .error (.io "reset"), true⟩ ∧
      s.fetch "main" 2 false = ⟨1, .error .cancelled, true⟩ := by
  intro s
  constructor <;> cbv

end Patchwork.Fetch.Source
