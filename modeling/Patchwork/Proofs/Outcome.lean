import Mathlib.Data.List.Forall2
import Mathlib.Tactic.TypeStar

/-!
# When a step succeeds

A composed step succeeds exactly if its parts do, one after another.
-/
namespace Patchwork

theorem exists_forall₂_iff {α β : Type*} {r : α → β → Prop} {l : List α} :
    (∃ m, List.Forall₂ r l m) ↔ ∀ a ∈ l, ∃ b, r a b := by
  induction l with
  | nil => simp
  | cons a l ih =>
    rw [List.forall_mem_cons, ← ih]
    constructor
    · rintro ⟨_, _ | ⟨hab, h⟩⟩
      exact ⟨⟨_, hab⟩, _, h⟩
    · rintro ⟨⟨b, hab⟩, m, h⟩
      exact ⟨b :: m, .cons hab h⟩

namespace Except

variable {ε ε' α β : Type*}

@[simp] theorem map_eq_ok_iff {f : α → β} {x : Except ε α} {b : β} :
    x.map f = .ok b ↔ ∃ a, x = .ok a ∧ f a = b := by
  cases x <;> simp [Except.map]

@[simp] theorem mapError_eq_ok_iff {f : ε → ε'} {x : Except ε α} {a : α} :
    x.mapError f = .ok a ↔ x = .ok a := by
  cases x with
  | error e => exact ⟨nofun, nofun⟩
  | ok b =>
    constructor
    · intro h
      rw [Except.ok.inj h]
    · intro h
      rw [Except.ok.inj h]
      rfl

theorem mapError_eq_error_iff {f : ε → ε'} {x : Except ε α} {e : ε'} :
    x.mapError f = .error e ↔ ∃ e', x = .error e' ∧ f e' = e := by
  cases x <;> simp [Except.mapError]

theorem bind_eq_ok_iff {α β : Type _} {x : Except ε α} {f : α → Except ε β} {b : β} :
    x >>= f = .ok b ↔ ∃ a, x = .ok a ∧ f a = .ok b := by
  cases x <;> simp [bind, Except.bind]

theorem bind_eq_error_iff {α β : Type _} {x : Except ε α} {f : α → Except ε β} {e : ε} :
    x >>= f = .error e ↔ x = .error e ∨ ∃ a, x = .ok a ∧ f a = .error e := by
  cases x <;> simp [bind, Except.bind]

/-- Steps along a list succeed exactly if each does, with their results in order. -/
theorem mapM_eq_ok_iff {α β : Type _} {f : α → Except ε β} {l : List α} {m : List β} :
    l.mapM f = .ok m ↔ List.Forall₂ (fun a b => f a = .ok b) l m := by
  induction l generalizing m with
  | nil => simp [pure, Except.pure, eq_comm]
  | cons a l ih =>
    rw [List.mapM_cons]
    simp only [bind_eq_ok_iff, List.forall₂_cons_left_iff, ← ih]
    constructor
    · rintro ⟨b, hb, bs, hbs, h⟩
      exact ⟨b, bs, hb, hbs, (Except.ok.inj h).symm⟩
    · rintro ⟨b, bs, hb, hbs, rfl⟩
      exact ⟨b, hb, bs, hbs, rfl⟩

theorem mapM_congr {α β : Type _} {f g : α → Except ε β} {l : List α} (h : ∀ a ∈ l, f a = g a) :
    l.mapM f = l.mapM g := by
  induction l with
  | nil => rfl
  | cons a l ih =>
    obtain ⟨ha, h⟩ := List.forall_mem_cons.1 h
    rw [List.mapM_cons, List.mapM_cons, ha, ih h]

theorem mem_iff_of_mapM_eq_ok {α β : Type _} {f : α → Except ε β} {l : List α} {m : List β}
    (h : l.mapM f = .ok m) {b : β} : b ∈ m ↔ ∃ a ∈ l, f a = .ok b := by
  have hsteps := mapM_eq_ok_iff.1 h
  clear h
  induction hsteps with
  | nil => simp
  | cons hab _ ih => simp [ih, hab, eq_comm]

/-- If what is given leads back to where it was given, the list is found again. -/
theorem eq_map_of_mapM_eq_ok {α β : Type _} {f : α → Except ε β} {g : β → α} {l : List α}
    {m : List β} (h : l.mapM f = .ok m) (hg : ∀ a ∈ l, ∀ b, f a = .ok b → g b = a) :
    l = m.map g := by
  have hsteps := mapM_eq_ok_iff.1 h
  clear h
  induction hsteps with
  | nil => rfl
  | cons hab _ ih =>
    obtain ⟨ha, hg⟩ := List.forall_mem_cons.1 hg
    rw [List.map_cons, ha _ hab, ← ih hg]

theorem eq_of_mapM_eq_ok {α β γ : Type _} {f : α → Except ε β} {key : β → γ} {l : List α}
    {m : List β} (h : l.mapM f = .ok m) (hnodup : (m.map key).Nodup) {a a' : α} {b b' : β}
    (ha : a ∈ l) (ha' : a' ∈ l) (hb : f a = .ok b) (hb' : f a' = .ok b') (heq : key b = key b') :
    a = a' := by
  have hmem : ∀ {l : List α} {m : List β}, l.mapM f = .ok m →
      ∀ {a}, a ∈ l → ∀ {b}, f a = .ok b → key b ∈ m.map key :=
    fun h _ ha _ hb => List.mem_map_of_mem ((mem_iff_of_mapM_eq_ok h).2 ⟨_, ha, hb⟩)
  induction l generalizing m with
  | nil => cases ha
  | cons x l ih =>
    rw [mapM_eq_ok_iff, List.forall₂_cons_left_iff] at h
    obtain ⟨y, m, hy, h, rfl⟩ := h
    rw [← mapM_eq_ok_iff] at h
    obtain ⟨hnew, hnodup⟩ := List.nodup_cons.1 hnodup
    rcases List.mem_cons.1 ha with rfl | hl <;> rcases List.mem_cons.1 ha' with rfl | hl'
    · rfl
    · obtain rfl := Except.ok.inj (hy.symm.trans hb)
      exact absurd (heq ▸ hmem h hl' hb') hnew
    · obtain rfl := Except.ok.inj (hy.symm.trans hb')
      exact absurd (heq ▸ hmem h hl hb) hnew
    · exact ih h hnodup hl hl'

theorem exists_mapM_eq_ok_iff {α β : Type _} {f : α → Except ε β} {l : List α} :
    (∃ m, l.mapM f = .ok m) ↔ ∀ a ∈ l, ∃ b, f a = .ok b := by
  simp only [mapM_eq_ok_iff]
  exact exists_forall₂_iff

instance decidableForallOk {α : Type _} {x : Except ε α} {p : α → Prop} [∀ a, Decidable (p a)] :
    Decidable (∀ a, x = .ok a → p a) :=
  match x with
  | .ok a => decidable_of_iff (p a) ⟨fun h _ heq => Except.ok.inj heq ▸ h, fun h => h a rfl⟩
  | .error _ => isTrue fun _ heq => nomatch heq

instance decidableExistsOk {x : Except ε α} : Decidable (∃ a, x = .ok a) :=
  match x with
  | .ok a => isTrue ⟨a, rfl⟩
  | .error _ => isFalse fun ⟨_, h⟩ => nomatch h

end Except

end Patchwork
