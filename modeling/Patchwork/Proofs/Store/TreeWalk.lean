import Patchwork.Proofs.Store.Prune
import Patchwork.Proofs.Store.Tree

/-!
# Walks that pass over directories

A tree is loaded on a walk that does not go into what it passes over. The walk through everything
has each directory in front of what lies in it, so this leaves exactly the entries with nothing on
the way to them that is passed over (`walkPast_eq_filter`), and these are the files that a tree is
made of (`treeFiles_eq_walkPast`).
-/
namespace Patchwork

theorem Location.compare_ne_lt_of_prefix {front names : Location} (h : front <+: names) :
    compare names front ≠ .lt := by
  obtain ⟨rest, rfl⟩ := h
  intro hlt
  have hnil := Location.compare_append front rest []
  rw [List.append_nil, hlt] at hnil
  cases rest with
  | nil => simp [Std.ReflCmp.compare_self] at hnil
  | cons name rest => simp [List.compare_cons_nil] at hnil

namespace Store

variable {d : Disk} {dir names : Location} {excludes : List TreePath} {passes : Location → Bool}
  {es : List (Location × Node)}

/-- A walk that does not go into what it passes over: all that follows and lies in that is left out
with it. -/
def walkPast (passes : Location → Bool) : List (Location × Node) → List (Location × Node)
  | [] => []
  | e :: es =>
    if passes e.1 then walkPast passes (es.dropWhile fun e' => e'.1.isWithin e.1)
    else e :: walkPast passes es
termination_by es => es.length
decreasing_by
  · exact Nat.lt_succ_of_le (List.dropWhile_sublist _).length_le
  · exact Nat.lt_succ_self _

theorem not_prefix_of_mem_dropWhile {e e' : Location × Node}
    (hsorted : (e :: es).Pairwise fun a b => compare a.1 b.1 = .lt)
    (h : e' ∈ es.dropWhile fun e' => e'.1.isWithin e.1) : ¬ e.1 <+: e'.1 := by
  obtain ⟨hfirst, hsorted⟩ := List.pairwise_cons.1 hsorted
  cases hrest : es.dropWhile fun e' => e'.1.isWithin e.1 with
  | nil => simp [hrest] at h
  | cons b rest =>
    have hb : ¬ e.1 <+: b.1 := by
      have hhead := List.head?_dropWhile_not (fun e' : Location × Node => e'.1.isWithin e.1) es
      rw [hrest] at hhead
      rw [← Location.isWithin_iff, Bool.not_eq_true]
      exact hhead
    have hmem : b ∈ es.dropWhile fun e' => e'.1.isWithin e.1 := by
      rw [hrest]
      exact List.mem_cons_self
    have hlt : compare e.1 b.1 = .lt := hfirst b (List.dropWhile_subset _ hmem)
    have hrestSorted := hsorted.sublist (List.dropWhile_sublist fun e' => e'.1.isWithin e.1)
    rw [hrest] at h hrestSorted
    rcases List.mem_cons.1 h with rfl | h
    · exact hb
    · exact fun hprefix =>
        hb (Location.prefix_of_between hlt ((List.pairwise_cons.1 hrestSorted).1 e' h) hprefix)

/-- If each directory is visited before what lies in it, what is left are the entries with nothing
on the way to them that is passed over. -/
theorem walkPast_eq_filter (hsorted : es.Pairwise fun a b => compare a.1 b.1 = .lt)
    (hway : ∀ e ∈ es, ∀ front, front <+: e.1 → passes front = true → ∃ e' ∈ es, e'.1 = front) :
    walkPast passes es = es.filter fun e => e.1.inits.all (!passes ·) := by
  have hkept : ∀ e : Location × Node, e.1.inits.all (!passes ·) = true ↔ ∀ front, front <+: e.1 →
      passes front = false := by
    simp
  fun_induction walkPast passes es with
  | case1 => rfl
  | case2 e es hpassed ih =>
    have hout : ∀ e' : Location × Node, e.1 <+: e'.1 → e'.1.inits.all (!passes ·) = false := by
      intro e' hprefix
      rw [← Bool.not_eq_true, hkept]
      exact fun h => by simp [h e.1 hprefix] at hpassed
    have hsplit :=
      List.takeWhile_append_dropWhile (p := fun e' : Location × Node => e'.1.isWithin e.1) (l := es)
    have hwithin : ∀ e' ∈ es.takeWhile fun e' => e'.1.isWithin e.1, e.1 <+: e'.1 := fun e' he' =>
      Location.isWithin_iff.1
        (List.mem_takeWhile_imp (p := fun e' : Location × Node => e'.1.isWithin e.1) he')
    have hdropped : (es.takeWhile fun e' => e'.1.isWithin e.1).filter
        (fun e => e.1.inits.all (!passes ·)) = [] := by
      refine List.filter_eq_nil_iff.2 fun e' he' => ?_
      rw [hout e' (hwithin e' he')]
      exact Bool.false_ne_true
    rw [List.filter_cons_of_neg (by simp [hout e (List.prefix_refl _)]), ih]
    · conv_rhs => rw [← hsplit, List.filter_append, hdropped, List.nil_append]
    · exact (List.pairwise_cons.1 hsorted).2.sublist (List.dropWhile_sublist _)
    · intro e' he' front hfront hpassed'
      obtain ⟨other, hother, rfl⟩ :=
        hway e' (List.mem_cons_of_mem _ (List.dropWhile_subset _ he')) front hfront hpassed'
      have hapart := not_prefix_of_mem_dropWhile hsorted he'
      refine ⟨other, ?_, rfl⟩
      rcases List.mem_cons.1 hother with rfl | hother
      · exact absurd hfront hapart
      · rw [← hsplit, List.mem_append] at hother
        exact hother.resolve_left fun htaken => hapart ((hwithin other htaken).trans hfront)
  | case3 e es hpassed ih =>
    obtain ⟨hfirst, hsorted⟩ := List.pairwise_cons.1 hsorted
    have hway' : ∀ e' ∈ es, ∀ front, front <+: e'.1 → passes front = true →
        ∃ e' ∈ es, e'.1 = front := by
      intro e' he' front hfront hpassed'
      obtain ⟨other, hother, rfl⟩ := hway e' (List.mem_cons_of_mem _ he') front hfront hpassed'
      rcases List.mem_cons.1 hother with rfl | hother
      · exact absurd hpassed' hpassed
      · exact ⟨other, hother, rfl⟩
    rw [List.filter_cons_of_pos, ih hsorted hway']
    refine (hkept e).2 fun front hfront => ?_
    rw [← Bool.not_eq_true]
    intro hpassed'
    obtain ⟨other, hother, rfl⟩ := hway e List.mem_cons_self front hfront hpassed'
    rcases List.mem_cons.1 hother with rfl | hother
    · exact hpassed hpassed'
    · exact Location.compare_ne_lt_of_prefix hfront (hfirst other hother)

/-- Whether a walk does not go into what the names lead to. It always goes into the directory where
it starts. -/
def isClosed (excludes : List TreePath) (names : Location) : Bool :=
  names ≠ [] && (names.getLast?.any (·.text == versionControl) ||
    match TreePath.ofString (Location.text names) with
    | .ok p => p.isExcluded excludes
    | .error _ => false)

theorem isClosed_eq_false_iff : isClosed excludes names = false ↔ names ≠ [] →
    (∀ name ∈ names.getLast?, name.text ≠ versionControl) ∧
      ∀ p, TreePath.ofString (Location.text names) = .ok p → p.isExcluded excludes = false := by
  unfold isClosed
  rw [Bool.and_eq_false_imp, decide_eq_true_eq]
  exact imp_congr_right fun _ => versionControl_or_isExcluded_eq_false_iff

theorem isPassedOver_eq_false_iff_isClosed :
    isPassedOver excludes names = false ↔ ∀ front, front <+: names →
    isClosed excludes front = false := by
  rw [isPassedOver_eq_false_iff]
  exact ⟨fun h front hfront => isClosed_eq_false_iff.2 fun hne => h front hne hfront,
    fun h front hne hfront => isClosed_eq_false_iff.1 (h front hfront) hne⟩

/-- The files of a tree are those that are met on a walk that does not go into what is passed
over. -/
theorem treeFiles_eq_walkPast (excludes : List TreePath) (d : Disk) (dir : Location) :
    treeFiles excludes d dir = (walkPast (isClosed excludes) (d.walk dir)).filterMap fun e =>
      match e.2 with
      | .directory => none
      | .file content => some (e.1, content) := by
  have hway : ∀ e ∈ d.walk dir, ∀ front, front <+: e.1 → isClosed excludes front = true →
      ∃ e' ∈ d.walk dir, e'.1 = front := by
    rintro ⟨names, node⟩ hmem front ⟨rest, rfl⟩ -
    have hnode : d.node? (dir ++ front) ≠ none := fun hnone => by
      have hbelow := Disk.node?_of_prefix_of_none hnone ⟨rest, List.append_assoc ..⟩
      rw [Disk.mem_walk_iff.1 hmem] at hbelow
      cases hbelow
    obtain ⟨node', hnode⟩ := Option.ne_none_iff_exists'.1 hnode
    exact ⟨(front, node'), Disk.mem_walk_iff.2 hnode, rfl⟩
  rw [walkPast_eq_filter d.pairwise_walk hway, List.filterMap_filter, treeFiles]
  refine List.filterMap_congr fun e _ => ?_
  have hpassed : isPassedOver excludes e.1 = !e.1.inits.all (!isClosed excludes ·) := by
    rw [← Bool.not_eq_eq_eq_not, Bool.eq_iff_iff, Bool.not_eq_true',
      isPassedOver_eq_false_iff_isClosed]
    simp
  rw [hpassed]
  cases e.2 <;> cases e.1.inits.all (!isClosed excludes ·) <;> rfl

end Store

end Patchwork
