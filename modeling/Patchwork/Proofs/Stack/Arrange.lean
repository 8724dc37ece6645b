import Mathlib.Data.List.Nodup
import Patchwork.Stack.Regenerate

/-!
# Arranging a stack

A stack that is arranged in an order holds the same patches (`arrange_perm`). If it has one patch a
file, the targets in the order come first, as the order first names them, and the others keep their
places (`targets_arrange`). Arranged in the order of its own targets it is as it was
(`arrange_targets_eq`). In all cases the patches are sorted by the place of their target in the
order, and those of equal rank stay as they stood (`arrange_eq_mergeSort`).
-/
namespace Patchwork

theorem nodup_eraseDups {α : Type*} [BEq α] [LawfulBEq α] (l : List α) : l.eraseDups.Nodup := by
  induction hn : l.length using Nat.strongRecOn generalizing l with
  | ind n ih =>
    cases l with
    | nil => exact List.nodup_nil
    | cons a l =>
      rw [List.eraseDups_cons, List.nodup_cons]
      refine ⟨by simp, ih _ ?_ _ rfl⟩
      have := List.length_filter_le (fun b => !b == a) l
      rw [← hn, List.length_cons]
      omega

theorem eraseDups_of_nodup {α : Type*} [BEq α] [LawfulBEq α] {l : List α} (h : l.Nodup) :
    l.eraseDups = l := by
  induction l with
  | nil => rfl
  | cons a l ih =>
    obtain ⟨ha, hl⟩ := List.nodup_cons.1 h
    have hothers : l.filter (fun b => !b == a) = l := by
      refine List.filter_eq_self.2 fun b hb => ?_
      have hne : b ≠ a := fun heq => ha (heq ▸ hb)
      simpa using hne
    rw [List.eraseDups_cons, hothers, ih hl]

theorem idxOf_lt_idxOf_of_filter {α : Type*} [BEq α] [LawfulBEq α] {q : α → Bool} {a b : α}
    (ha : q a = true) (hb : q b = true) {l : List α}
    (h : (l.filter q).idxOf a < (l.filter q).idxOf b) : l.idxOf a < l.idxOf b := by
  induction l with
  | nil => exact h
  | cons c l ih =>
    have hne : ∀ x, q x = true → q c = false → (c == x) = false := by
      intro x hx hc
      refine beq_eq_false_iff_ne.2 ?_
      rintro rfl
      rw [hx] at hc
      cases hc
    cases hc : q c with
    | true =>
      rw [List.filter_cons_of_pos hc] at h
      simp only [List.idxOf_cons] at h ⊢
      cases hca : c == a <;> cases hcb : c == b <;> simp_all
    | false =>
      rw [List.filter_cons_of_neg (by simp [hc])] at h
      simpa [List.idxOf_cons, hne a ha hc, hne b hb hc] using ih h

/-- Without repetitions, the elements of a list stand in the order of their first occurrence in
it. -/
theorem pairwise_idxOf_eraseDups {α : Type*} [BEq α] [LawfulBEq α] (l : List α) :
    l.eraseDups.Pairwise fun a b => l.idxOf a < l.idxOf b := by
  induction hn : l.length using Nat.strongRecOn generalizing l with
  | ind n ih =>
    cases l with
    | nil => exact List.Pairwise.nil
    | cons a l =>
      have hlength := List.length_filter_le (fun b => !b == a) l
      rw [← hn, List.length_cons] at ih
      rw [List.eraseDups_cons, List.pairwise_cons]
      have hother : ∀ b ∈ (l.filter fun b => !b == a).eraseDups, (a == b) = false := by
        intro b hb
        simpa [BEq.comm] using (List.mem_filter.1 (List.mem_eraseDups.1 hb)).2
      refine ⟨fun b hb => ?_, (ih _ (by omega) _ rfl).imp_of_mem fun {b c} hb hc hlt => ?_⟩
      · simp [List.idxOf_cons, hother b hb]
      · have hrest : l.idxOf b < l.idxOf c :=
          idxOf_lt_idxOf_of_filter (by simp [BEq.comm, hother b hb])
            (by simp [BEq.comm, hother c hc]) hlt
        simpa [List.idxOf_cons, hother b hb, hother c hc] using hrest

/-- A member stands once among the elements without repetitions, between those that occur before it
and those that occur after it. -/
theorem exists_eraseDups_eq_append {α : Type*} [BEq α] [LawfulBEq α] {a : α} {l : List α}
    (h : a ∈ l) : ∃ before after, l.eraseDups = before ++ a :: after ∧ a ∉ before ∧ a ∉ after ∧
      (∀ b ∈ before, l.idxOf b < l.idxOf a) ∧ ∀ b ∈ after, l.idxOf a < l.idxOf b := by
  obtain ⟨before, after, heq⟩ := List.append_of_mem (List.mem_eraseDups.2 h)
  have hpairwise := pairwise_idxOf_eraseDups l
  rw [heq, List.pairwise_append, List.pairwise_cons] at hpairwise
  obtain ⟨-, ⟨hafter, -⟩, hbefore⟩ := hpairwise
  have hlt : ∀ b ∈ before, l.idxOf b < l.idxOf a := fun b hb => hbefore b hb a (by simp)
  exact ⟨before, after, heq, fun ha => absurd (hlt a ha) (Nat.lt_irrefl _),
    fun ha => absurd (hafter a ha) (Nat.lt_irrefl _), hlt, hafter⟩

theorem sublist_singleton_of_nodup {α : Type*} {a : α} {l : List α} (hnodup : l.Nodup)
    (h : ∀ b ∈ l, b = a) : l.Sublist [a] := by
  cases l with
  | nil => exact List.nil_sublist _
  | cons b l =>
    obtain ⟨hb, -⟩ := List.nodup_cons.1 hnodup
    have hl : l = [] := by
      rw [List.eq_nil_iff_forall_not_mem]
      intro c hc
      rw [h b (by simp), ← h c (by simp [hc])] at hb
      exact hb hc
    rw [hl, h b (by simp)]

namespace Stack

variable (s : Stack)

theorem flatMap_filter_perm {targets : List TreePath} (hnodup : targets.Nodup) :
    (targets.flatMap fun target => s.filter (·.target = target)).Perm
      (s.filter (·.target ∈ targets)) := by
  induction targets with
  | nil => simp
  | cons target targets ih =>
    obtain ⟨htarget, hnodup⟩ := List.nodup_cons.1 hnodup
    have hsplit := List.filter_append_perm (fun p : StoredPatch => decide (p.target = target))
      (s.filter (·.target ∈ target :: targets))
    have hfirst : (s.filter (·.target ∈ target :: targets)).filter (·.target = target) =
        s.filter (·.target = target) := by
      rw [List.filter_filter]
      refine List.filter_congr fun p _ => ?_
      by_cases h : p.target = target <;> simp [h]
    have hrest : (s.filter (·.target ∈ target :: targets)).filter
        (fun p => !decide (p.target = target)) = s.filter (·.target ∈ targets) := by
      rw [List.filter_filter]
      refine List.filter_congr fun p _ => ?_
      by_cases h : p.target = target
      · simp [h, htarget]
      · simp [h]
    rw [hfirst, hrest] at hsplit
    rw [List.flatMap_cons]
    exact ((ih hnodup).append_left _).trans hsplit

theorem arrange_perm (order : List TreePath) : (s.arrange order).Perm s := by
  have hsplit := List.filter_append_perm (fun p : StoredPatch => decide (p.target ∈ order)) s
  have hlisted := s.flatMap_filter_perm (nodup_eraseDups order)
  simp only [List.mem_eraseDups] at hlisted
  have hrest : s.filter (·.target ∉ order) = s.filter fun p => !decide (p.target ∈ order) :=
    List.filter_congr fun p _ => by simp
  rw [arrange, hrest]
  exact (hlisted.append_right _).trans hsplit

theorem targets_arrange_perm (order : List TreePath) :
    (s.arrange order).targets.Perm s.targets :=
  (s.arrange_perm order).map _

variable {s}

theorem filter_target_eq_singleton (hnodup : s.targets.Nodup) {p : StoredPatch} (hp : p ∈ s) :
    s.filter (·.target = p.target) = [p] := by
  have hsublist : (s.filter (·.target = p.target)).Sublist [p] := by
    refine sublist_singleton_of_nodup (hnodup.of_map.filter _) fun q hq => ?_
    obtain ⟨hmem, htarget⟩ := List.mem_filter.1 hq
    exact List.inj_on_of_nodup_map hnodup hmem hp (by simpa using htarget)
  have hmem : p ∈ s.filter (·.target = p.target) := List.mem_filter.2 ⟨hp, by simp⟩
  exact hsublist.eq_of_length_le (List.length_pos_of_mem hmem)

theorem flatMap_target_filter (hnodup : s.targets.Nodup) (names : List TreePath) :
    (names.flatMap fun target => (s.filter (·.target = target)).map (·.target)) =
      names.filter (· ∈ s.targets) := by
  induction names with
  | nil => rfl
  | cons target names ih =>
    rw [List.flatMap_cons, ih]
    by_cases hmem : target ∈ s.targets
    · obtain ⟨p, hp, rfl⟩ := List.mem_map.1 hmem
      rw [filter_target_eq_singleton hnodup hp, List.filter_cons_of_pos (by simpa using hmem)]
      rfl
    · have hnone : s.filter (·.target = target) = [] := by
        refine List.filter_eq_nil_iff.2 fun p hp htarget => hmem ?_
        exact List.mem_map.2 ⟨p, hp, by simpa using htarget⟩
      rw [hnone, List.filter_cons_of_neg (by simpa using hmem)]
      rfl

/-- If there is one patch a file, the targets in the order come first, as the order first names
them, and the others keep their places. -/
theorem targets_arrange (hnodup : s.targets.Nodup) (order : List TreePath) :
    (s.arrange order).targets = order.eraseDups.filter (· ∈ s.targets) ++ s.targets.filter
      (· ∉ order) := by
  rw [arrange, targets, List.map_append, List.map_flatMap, flatMap_target_filter hnodup, targets,
    List.filter_map]
  rfl

/-- Single patches that are arranged as they stand somewhere come to stand as they do there. -/
theorem arrange_targets_eq {r : Stack} (hperm : s.Perm r) (hnodup : s.targets.Nodup) :
    r.arrange s.targets = s := by
  have hothers : r.filter (·.target ∉ s.targets) = [] := by
    rw [List.filter_eq_nil_iff]
    intro p hp
    have hmem : p.target ∈ s.targets := List.mem_map_of_mem (hperm.mem_iff.2 hp)
    simpa using hmem
  have hsingle : ∀ p ∈ s, r.filter (·.target = p.target) = [p] := fun p hp =>
    filter_target_eq_singleton ((hperm.map _).nodup_iff.1 hnodup) (hperm.mem_iff.1 hp)
  rw [arrange, hothers, List.append_nil, eraseDups_of_nodup hnodup, targets, List.flatMap_map,
    List.flatMap_congr hsingle, List.flatMap_singleton']

/-! ## The stable sort by rank -/

/-- A list that is cut where the ranks reach `n` can be cut in one way only. -/
theorem append_inj_of_rank {α : Type*} (rank : α → Nat) {n : Nat} {l₁ l₂ m₁ m₂ : List α}
    (h : l₁ ++ l₂ = m₁ ++ m₂) (hl₁ : ∀ a ∈ l₁, rank a < n) (hl₂ : ∀ a ∈ l₂, n ≤ rank a)
    (hm₁ : ∀ a ∈ m₁, rank a < n) (hm₂ : ∀ a ∈ m₂, n ≤ rank a) : l₁ = m₁ ∧ l₂ = m₂ := by
  have hfront : ∀ {k₁ k₂ : List α}, (∀ a ∈ k₁, rank a < n) → (∀ a ∈ k₂, n ≤ rank a) →
      (k₁ ++ k₂).filter (rank · < n) = k₁ := by
    intro k₁ k₂ hk₁ hk₂
    rw [List.filter_append, List.filter_eq_self.2 fun a ha => by simpa using hk₁ a ha,
      List.filter_eq_nil_iff.2 fun a ha => by simpa using hk₂ a ha, List.append_nil]
  have hl : l₁ = m₁ := by rw [← hfront hl₁ hl₂, h, hfront hm₁ hm₂]
  exact ⟨hl, List.append_cancel_left (hl ▸ h)⟩

/-- Where an order first names the target of a patch. A target that it does not name comes last. -/
def rank (order : List TreePath) (p : StoredPatch) : Nat := order.idxOf p.target

theorem flatMap_filter_cons_of_notMem {p : StoredPatch} {names : List TreePath}
    (h : p.target ∉ names) : (names.flatMap fun target => (p :: s).filter (·.target = target)) =
      names.flatMap fun target => s.filter (·.target = target) := by
  refine List.flatMap_congr fun target htarget => List.filter_cons_of_neg ?_
  have hne : p.target ≠ target := fun heq => h (heq ▸ htarget)
  simpa using hne

theorem target_mem_of_mem_flatMap {q : StoredPatch} {names : List TreePath}
    (h : q ∈ names.flatMap fun target => s.filter (·.target = target)) : q.target ∈ names := by
  obtain ⟨target, htarget, hq⟩ := List.mem_flatMap.1 h
  obtain rfl : q.target = target := by simpa using (List.mem_filter.1 hq).2
  exact htarget

/-- The targets that are not named come last. -/
theorem rank_le_of_notMem {q : StoredPatch} {order : List TreePath} (h : q.target ∉ order)
    (p : StoredPatch) : rank order p ≤ rank order q := by
  rw [rank, rank, List.idxOf_eq_length h]
  exact List.idxOf_le_length

/-- A patch is arranged in front of all that are not named earlier than itself. -/
theorem arrange_cons (p : StoredPatch) (s : Stack) (order : List TreePath) :
    ∃ front back : Stack, arrange (p :: s) order = front ++ p :: back ∧
      s.arrange order = front ++ back ∧ (∀ q ∈ front, rank order q < rank order p) ∧
        ∀ q ∈ back, rank order p ≤ rank order q := by
  have hothers : ∀ q ∈ s.filter (·.target ∉ order), rank order p ≤ rank order q := fun q hq =>
    rank_le_of_notMem (by simpa using (List.mem_filter.1 hq).2) p
  by_cases hmem : p.target ∈ order
  · obtain ⟨before, after, hnames, hbefore, hafter, hlt, hgt⟩ := exists_eraseDups_eq_append hmem
    refine ⟨before.flatMap fun target => s.filter (·.target = target),
      s.filter (·.target = p.target) ++ (after.flatMap fun target =>
        s.filter (·.target = target)) ++ s.filter (·.target ∉ order), ?_, ?_, fun q hq => ?_,
      fun q hq => ?_⟩
    · rw [arrange, hnames, List.flatMap_append, List.flatMap_cons,
        flatMap_filter_cons_of_notMem hbefore, flatMap_filter_cons_of_notMem hafter,
        List.filter_cons_of_pos (by simp), List.filter_cons_of_neg (by simpa using hmem)]
      simp only [List.append_assoc, List.cons_append]
    · rw [arrange, hnames, List.flatMap_append, List.flatMap_cons]
      simp only [List.append_assoc]
    · exact hlt _ (target_mem_of_mem_flatMap hq)
    · simp only [List.mem_append] at hq
      rcases hq with (hq | hq) | hq
      · have heq : q.target = p.target := by simpa using (List.mem_filter.1 hq).2
        simp [rank, heq]
      · exact Nat.le_of_lt (hgt _ (target_mem_of_mem_flatMap hq))
      · exact hothers q hq
  · refine ⟨order.eraseDups.flatMap fun target => s.filter (·.target = target),
      s.filter (·.target ∉ order), ?_, rfl, fun q hq => ?_, hothers⟩
    · rw [arrange, flatMap_filter_cons_of_notMem (by simpa using hmem),
        List.filter_cons_of_pos (by simpa using hmem)]
    · rw [rank, rank, List.idxOf_eq_length hmem]
      exact List.idxOf_lt_length_of_mem (List.mem_eraseDups.1 (target_mem_of_mem_flatMap hq))

/-- Arranging is the stable sort by rank. -/
theorem arrange_eq_mergeSort (s : Stack) (order : List TreePath) :
    s.arrange order = s.mergeSort fun p q => rank order p ≤ rank order q := by
  have htrans : ∀ p q r : StoredPatch, decide (rank order p ≤ rank order q) →
      decide (rank order q ≤ rank order r) → decide (rank order p ≤ rank order r) := by
    simpa using fun p q r => Nat.le_trans
  have htotal : ∀ p q : StoredPatch,
      decide (rank order p ≤ rank order q) || decide (rank order q ≤ rank order p) := by
    simpa using fun p q => Nat.le_total _ _
  induction s with
  | nil => simp [arrange]
  | cons p s ih =>
    obtain ⟨front, back, hcons, hrest, hfront, hback⟩ := arrange_cons p s order
    obtain ⟨l₁, l₂, hsort, hsorted, hl₁⟩ := List.mergeSort_cons htrans htotal p s
    have hl₂ := List.pairwise_mergeSort htrans htotal (p :: s)
    rw [hsort, List.pairwise_append, List.pairwise_cons] at hl₂
    have hsame : front ++ back = l₁ ++ l₂ := by rw [← hrest, ih, hsorted]
    obtain ⟨rfl, rfl⟩ := append_inj_of_rank (rank order) hsame hfront hback
      (by simpa using hl₁) (by simpa using hl₂.2.1.1)
    rw [hcons, hsort]

end Stack

end Patchwork
