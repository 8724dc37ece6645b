/-!
# Maps in canonical form

A `SortedMap` holds its entries in strictly increasing order of their keys. Two maps with the same
look-ups are therefore the same value (`SortedMap.ext_get?`), and every operation is described by
the look-ups of its result.
-/
namespace Patchwork

universe u v

/-- Entries with strictly increasing keys. -/
structure SortedMap (κ : Type u) (α : Type v) [Ord κ] where
  toList : List (κ × α)
  sorted : toList.Pairwise fun a b => compare a.1 b.1 = .lt

namespace SortedMap

variable {κ : Type u} {α : Type v} [Ord κ]

theorem ext_toList {m n : SortedMap κ α} (h : m.toList = n.toList) : m = n := by
  cases m; cases n; simp_all

instance [DecidableEq κ] [DecidableEq α] : DecidableEq (SortedMap κ α) := fun m n =>
  if h : m.toList = n.toList then isTrue (ext_toList h) else isFalse fun e => h (e ▸ rfl)

def empty : SortedMap κ α := ⟨[], .nil⟩

instance : Inhabited (SortedMap κ α) := ⟨empty⟩

def size (m : SortedMap κ α) : Nat := m.toList.length

def isEmpty (m : SortedMap κ α) : Bool := m.toList.isEmpty

def keys (m : SortedMap κ α) : List κ := m.toList.map (·.1)

def get? [DecidableEq κ] (m : SortedMap κ α) (k : κ) : Option α :=
  (m.toList.find? (·.1 = k)).map (·.2)

def contains [DecidableEq κ] (m : SortedMap κ α) (k : κ) : Bool := (m.get? k).isSome

/-- Puts an entry in its place, in front of the first larger key. -/
def insertEntry (k : κ) (a : α) : List (κ × α) → List (κ × α)
  | [] => [(k, a)]
  | e :: es =>
    match compare k e.1 with
    | .lt => (k, a) :: e :: es
    | .eq => (k, a) :: es
    | .gt => e :: insertEntry k a es

private theorem key_lt_of_gt [Std.TransOrd κ] {x y : κ} (h : compare x y = .gt) :
    compare y x = .lt :=
  Std.OrientedCmp.gt_iff_lt.1 h

private theorem key_lt_trans [Std.TransOrd κ] {x y z : κ} (h : compare x y = .lt)
    (h' : compare y z = .lt) : compare x z = .lt :=
  Std.TransCmp.lt_trans h h'

private theorem key_ne_of_lt [Std.LawfulEqOrd κ] {x y : κ} (h : compare x y = .lt) : x ≠ y := by
  rintro rfl
  simp [Std.ReflCmp.compare_self] at h

theorem mem_insertEntry {k : κ} {a : α} {es : List (κ × α)} {e : κ × α} :
    e ∈ insertEntry k a es → e = (k, a) ∨ e ∈ es := by
  induction es with
  | nil => simp [insertEntry]
  | cons d ds ih =>
    unfold insertEntry
    split
    · simp
    · simp only [List.mem_cons]; rintro (h | h) <;> simp [h]
    · simp only [List.mem_cons]
      rintro (h | h)
      · exact .inr (.inl h)
      · exact (ih h).imp id .inr

section order

variable [Std.TransOrd κ] [Std.LawfulEqOrd κ]

theorem insertEntry_sorted {k : κ} {a : α} {es : List (κ × α)}
    (h : es.Pairwise fun x y => compare x.1 y.1 = .lt) :
    (insertEntry k a es).Pairwise fun x y => compare x.1 y.1 = .lt := by
  induction es with
  | nil => simp [insertEntry]
  | cons d ds ih =>
    obtain ⟨hd, hds⟩ := List.pairwise_cons.1 h
    unfold insertEntry
    split
    · rename_i hk
      refine List.pairwise_cons.2 ⟨fun e he => ?_, h⟩
      rcases List.mem_cons.1 he with rfl | he
      · exact hk
      · exact key_lt_trans hk (hd e he)
    · rename_i hk
      have hk : k = d.1 := Std.LawfulEqCmp.eq_of_compare hk
      exact List.pairwise_cons.2 ⟨fun e he => hk ▸ hd e he, hds⟩
    · rename_i hk
      refine List.pairwise_cons.2 ⟨fun e he => ?_, ih hds⟩
      rcases mem_insertEntry he with rfl | he
      · exact key_lt_of_gt hk
      · exact hd e he

def insert (m : SortedMap κ α) (k : κ) (a : α) : SortedMap κ α :=
  ⟨insertEntry k a m.toList, insertEntry_sorted m.sorted⟩

/-- Later pairs replace earlier ones with the same key. -/
def ofList (es : List (κ × α)) : SortedMap κ α :=
  es.foldl (fun m e => m.insert e.1 e.2) empty

/-- All entries of `n` laid over those of `m`. -/
def union (m n : SortedMap κ α) : SortedMap κ α :=
  n.toList.foldl (fun m e => m.insert e.1 e.2) m

end order

def filter (m : SortedMap κ α) (keep : κ → α → Bool) : SortedMap κ α :=
  ⟨m.toList.filter fun e => keep e.1 e.2, m.sorted.filter _⟩

def erase [DecidableEq κ] (m : SortedMap κ α) (k : κ) : SortedMap κ α :=
  m.filter fun j _ => j ≠ k

section lookups

@[simp] theorem get?_empty [DecidableEq κ] (k : κ) : (empty : SortedMap κ α).get? k = none := rfl

variable [Std.TransOrd κ] [Std.LawfulEqOrd κ]

private theorem eq_of_same_entries {es ds : List (κ × α)}
    (he : es.Pairwise fun x y => compare x.1 y.1 = .lt)
    (hd : ds.Pairwise fun x y => compare x.1 y.1 = .lt)
    (h : ∀ x, x ∈ es ↔ x ∈ ds) : es = ds := by
  induction es generalizing ds with
  | nil =>
    cases ds with
    | nil => rfl
    | cons d ds => simpa using (h d).2 (by simp)
  | cons e es ih =>
    obtain ⟨he₁, he₂⟩ := List.pairwise_cons.1 he
    cases ds with
    | nil => simpa using (h e).1 (by simp)
    | cons d ds =>
      obtain ⟨hd₁, hd₂⟩ := List.pairwise_cons.1 hd
      have first : e = d := by
        rcases List.mem_cons.1 ((h e).1 (by simp)) with rfl | hmem
        · rfl
        · rcases List.mem_cons.1 ((h d).2 (by simp)) with rfl | hmem'
          · rfl
          · exact absurd rfl (key_ne_of_lt (key_lt_trans (hd₁ e hmem) (he₁ d hmem')))
      subst first
      congr 1
      refine ih he₂ hd₂ fun x => ⟨fun hx => ?_, fun hx => ?_⟩
      · rcases List.mem_cons.1 ((h x).1 (by simp [hx])) with rfl | hx'
        · exact absurd rfl (key_ne_of_lt (he₁ x hx))
        · exact hx'
      · rcases List.mem_cons.1 ((h x).2 (by simp [hx])) with rfl | hx'
        · exact absurd rfl (key_ne_of_lt (hd₁ x hx))
        · exact hx'

variable [DecidableEq κ]

omit [Std.TransOrd κ] in
private theorem find?_eq_some_of_sorted {es : List (κ × α)} {k : κ} {a : α}
    (h : es.Pairwise fun x y => compare x.1 y.1 = .lt) :
    (es.find? (·.1 = k)).map (·.2) = some a ↔ (k, a) ∈ es := by
  induction es with
  | nil => simp
  | cons d ds ih =>
    obtain ⟨hd, hds⟩ := List.pairwise_cons.1 h
    by_cases hk : d.1 = k
    · subst hk
      simp only [List.find?_cons, decide_true, Option.map_some, Option.some.injEq, List.mem_cons]
      constructor
      · rintro rfl; exact .inl rfl
      · rintro (h | h)
        · rw [← h]
        · exact absurd rfl (key_ne_of_lt (hd (d.1, a) h))
    · simp only [List.find?_cons, hk, decide_false, ih hds, List.mem_cons]
      constructor
      · exact .inr
      · rintro (h | h)
        · exact absurd (by rw [← h]) hk
        · exact h

omit [Std.TransOrd κ] in
theorem get?_eq_some_iff {m : SortedMap κ α} {k : κ} {a : α} :
    m.get? k = some a ↔ (k, a) ∈ m.toList :=
  find?_eq_some_of_sorted m.sorted

theorem ext_get? {m n : SortedMap κ α} (h : ∀ k, m.get? k = n.get? k) : m = n :=
  ext_toList <| eq_of_same_entries m.sorted n.sorted fun x => by
    rw [← get?_eq_some_iff (m := m), ← get?_eq_some_iff (m := n), h]

private theorem mem_insertEntry_iff {k : κ} {a : α} {es : List (κ × α)}
    (h : es.Pairwise fun x y => compare x.1 y.1 = .lt) {j : κ} {b : α} :
    (j, b) ∈ insertEntry k a es ↔ if j = k then b = a else (j, b) ∈ es := by
  induction es with
  | nil => by_cases hj : j = k <;> simp [insertEntry, hj]
  | cons d ds ih =>
    obtain ⟨hd, hds⟩ := List.pairwise_cons.1 h
    unfold insertEntry
    split <;> rename_i hk
    · by_cases hj : j = k
      · subst hj
        simp only [List.mem_cons, Prod.mk.injEq, true_and, if_true]
        refine ⟨fun h => h.elim id fun h => ?_, .inl⟩
        rcases h with h | h
        · rw [← h] at hk; exact absurd rfl (key_ne_of_lt hk)
        · exact absurd rfl (key_ne_of_lt (key_lt_trans hk (hd _ h)))
      · simp [hj]
    · have hk : k = d.1 := Std.LawfulEqCmp.eq_of_compare hk
      by_cases hj : j = k
      · subst hj
        simp only [List.mem_cons, Prod.mk.injEq, true_and, if_true]
        refine ⟨fun h => h.elim id fun h => ?_, .inl⟩
        exact absurd hk.symm (key_ne_of_lt (hd _ h))
      · have : (j, b) ≠ d := fun h => hj (hk ▸ h ▸ rfl)
        simp [hj, this]
    · have hk := key_ne_of_lt (key_lt_of_gt hk)
      simp only [List.mem_cons, ih hds]
      by_cases hj : j = k
      · subst hj
        have : (j, b) ≠ d := fun h => hk (h ▸ rfl)
        simp [this]
      · simp [hj]

@[simp] theorem get?_insert (m : SortedMap κ α) (k : κ) (a : α) (j : κ) :
    (m.insert k a).get? j = if j = k then some a else m.get? j := by
  refine Option.ext fun b => ?_
  rw [get?_eq_some_iff]
  show (j, b) ∈ insertEntry k a m.toList ↔ _
  rw [mem_insertEntry_iff m.sorted]
  by_cases hj : j = k
  · simp [hj, eq_comm]
  · simp [hj, ← get?_eq_some_iff]

omit [Std.TransOrd κ] in
@[simp] theorem get?_filter (m : SortedMap κ α) (keep : κ → α → Bool) (k : κ) :
    (m.filter keep).get? k = (m.get? k).filter (keep k) := by
  refine Option.ext fun b => ?_
  rw [get?_eq_some_iff, Option.filter_eq_some_iff, get?_eq_some_iff]
  simp [filter]

omit [Std.TransOrd κ] in
@[simp] theorem get?_erase (m : SortedMap κ α) (k j : κ) :
    (m.erase k).get? j = if j = k then none else m.get? j := by
  by_cases hj : j = k
  · subst hj; cases h : m.get? j <;> simp [erase, h, Option.filter]
  · cases h : m.get? j <;> simp [erase, hj, h, Option.filter]

private theorem get?_foldl_insert (es : List (κ × α)) (m : SortedMap κ α) (k : κ) :
    (es.foldl (fun m e => m.insert e.1 e.2) m).get? k
      = ((es.reverse.find? (·.1 = k)).map (·.2)).or (m.get? k) := by
  induction es generalizing m with
  | nil => simp
  | cons e es ih =>
    rw [List.foldl_cons, ih, get?_insert, List.reverse_cons, List.find?_append]
    cases es.reverse.find? (·.1 = k) with
    | some a => simp
    | none => by_cases h : k = e.1 <;> simp [h, eq_comm]

theorem get?_ofList (es : List (κ × α)) (k : κ) :
    (ofList es).get? k = (es.reverse.find? (·.1 = k)).map (·.2) := by
  simp [ofList, get?_foldl_insert]

omit [Std.TransOrd κ] in
private theorem find?_reverse_of_sorted {es : List (κ × α)} (k : κ)
    (h : es.Pairwise fun x y => compare x.1 y.1 = .lt) :
    (es.reverse.find? (·.1 = k)).map (·.2) = (es.find? (·.1 = k)).map (·.2) := by
  refine Option.ext fun a => ?_
  rw [find?_eq_some_of_sorted h]
  induction es with
  | nil => simp
  | cons d ds ih =>
    obtain ⟨hd, hds⟩ := List.pairwise_cons.1 h
    rw [List.reverse_cons, List.find?_append]
    cases hf : ds.reverse.find? (·.1 = k) with
    | some x =>
      have hx := ih hds
      rw [hf] at hx
      simp only [Option.map_some, Option.some_or, Option.some.injEq] at hx ⊢
      rw [hx, List.mem_cons]
      refine ⟨.inr, fun h' => h'.elim (fun e => ?_) id⟩
      have hxm := List.mem_reverse.1 (List.mem_of_find?_eq_some hf)
      have hxk : x.1 = k := by simpa using List.find?_some hf
      have := hd x hxm
      rw [← e, hxk] at this
      exact absurd rfl (key_ne_of_lt this)
    | none =>
      have hx := ih hds
      rw [hf] at hx
      simp only [Option.map_none, reduceCtorEq, false_iff] at hx
      by_cases hk : d.1 = k
      · subst hk
        obtain ⟨d₁, d₂⟩ := d
        simp [hx, eq_comm]
      · have : (k, a) ≠ d := fun e => hk (e ▸ rfl)
        simp [hk, hx, this]

@[simp] theorem get?_union (m n : SortedMap κ α) (k : κ) :
    (m.union n).get? k = (n.get? k).or (m.get? k) := by
  rw [union, get?_foldl_insert, find?_reverse_of_sorted k n.sorted]
  rfl

omit [Std.TransOrd κ] [Std.LawfulEqOrd κ] [Ord κ] in
private theorem find?_eq_some_of_nodup {es : List (κ × α)} {k : κ} {a : α}
    (h : (es.map (·.1)).Nodup) :
    (es.find? (·.1 = k)).map (·.2) = some a ↔ (k, a) ∈ es := by
  induction es with
  | nil => simp
  | cons e es ih =>
    obtain ⟨he, hes⟩ := List.nodup_cons.1 h
    by_cases hk : e.1 = k
    · subst hk
      have hne : (e.1, a) ∉ es := fun hm => he (List.mem_map.2 ⟨_, hm, rfl⟩)
      obtain ⟨k, b⟩ := e
      simp [hne, eq_comm]
    · have hne : (k, a) ≠ e := fun h => hk (h ▸ rfl)
      simp [hk, hne, ih hes]

theorem get?_ofList_of_nodup {es : List (κ × α)} (h : (es.map (·.1)).Nodup) (k : κ) (a : α) :
    (ofList es).get? k = some a ↔ (k, a) ∈ es := by
  rw [get?_ofList, find?_eq_some_of_nodup, List.mem_reverse]
  rw [List.map_reverse, List.Nodup, List.pairwise_reverse]
  exact h.imp Ne.symm

/-- Keeps the entries to whose keys `f` gives a new key, under that key. -/
def rekey {κ' : Type u} [Ord κ'] [Std.TransOrd κ'] [Std.LawfulEqOrd κ'] (m : SortedMap κ α)
    (f : κ → Option κ') : SortedMap κ' α :=
  ofList (m.toList.filterMap fun e => (f e.1).map (·, e.2))

omit [Std.TransOrd κ] in
/-- If no two keys become one, an entry is found under the new key exactly if one led there. -/
theorem get?_rekey {κ' : Type u} [Ord κ'] [Std.TransOrd κ'] [Std.LawfulEqOrd κ'] [DecidableEq κ']
    {m : SortedMap κ α} {f : κ → Option κ'}
    (h : ∀ k₁ k₂ j, f k₁ = some j → f k₂ = some j → k₁ = k₂) (j : κ') (a : α) :
    (m.rekey f).get? j = some a ↔ ∃ k, f k = some j ∧ m.get? k = some a := by
  rw [rekey, get?_ofList_of_nodup]
  · simp only [List.mem_filterMap, Option.map_eq_some_iff, Prod.mk.injEq, get?_eq_some_iff]
    constructor
    · rintro ⟨⟨k, b⟩, hm, j', hj, rfl, rfl⟩
      exact ⟨k, hj, hm⟩
    · rintro ⟨k, hj, hm⟩
      exact ⟨(k, a), hm, j, hj, rfl, rfl⟩
  · rw [List.Nodup, List.pairwise_map, List.pairwise_filterMap]
    refine m.sorted.imp fun {x y} hxy b hb c hc hbc => ?_
    obtain ⟨j, hj, rfl⟩ := Option.map_eq_some_iff.1 hb
    obtain ⟨j', hj', rfl⟩ := Option.map_eq_some_iff.1 hc
    simp only at hbc
    subst hbc
    exact key_ne_of_lt hxy (h _ _ _ hj hj')

end lookups

end SortedMap

end Patchwork
