import Mathlib.Data.List.Forall2
import Patchwork.Chain.Rebase
import Patchwork.Chain.Replay
import Patchwork.Proofs.Outcome

/-!
# A stage succeeds unit by unit

A stage succeeds exactly if each of its units does, and its results are those of the units in order.
-/
namespace Patchwork

open List (Forall₂)

/-! ## Lists side by side -/

theorem forall₂_zip_map {α β γ δ : Type*} {r : α × γ → δ → Prop} {f : β → γ} {g : β → δ}
    {l : List α} {m : List β} (h : Forall₂ (fun a b => r (a, f b) (g b)) l m) :
    Forall₂ r (l.zip (m.map f)) (m.map g) := by
  induction h with
  | nil => exact .nil
  | cons hab _ ih => exact .cons hab ih

theorem exists_of_mem_forall₂ {α β : Type*} {r : α → β → Prop} {l : List α} {m : List β}
    (h : Forall₂ r l m) : ∀ a ∈ l, ∃ b ∈ m, r a b := by
  induction h with
  | nil => simp
  | cons hab _ ih =>
    refine List.forall_mem_cons.2 ⟨⟨_, by simp, hab⟩, fun a ha => ?_⟩
    obtain ⟨b, hb, hab⟩ := ih a ha
    exact ⟨b, by simp [hb], hab⟩

theorem forall₂_and_right {α β : Type*} {r : α → β → Prop} {p : β → Prop} {l : List α} {m : List β}
    (h : Forall₂ r l m) (hp : ∀ b ∈ m, p b) : Forall₂ (fun a b => r a b ∧ p b) l m := by
  induction h with
  | nil => exact .nil
  | cons hab _ ih =>
    obtain ⟨hb, hp⟩ := List.forall_mem_cons.1 hp
    exact .cons ⟨hab, hb⟩ (ih hp)

theorem exists_map_of_forall₂ {α β γ : Type*} {r : α → γ → Prop} {f : γ → β} {l : List α}
    {m : List β} (h : Forall₂ (fun a b => ∃ c, r a c ∧ f c = b) l m) :
    ∃ cs, Forall₂ r l cs ∧ cs.map f = m := by
  induction h with
  | nil => exact ⟨[], .nil, rfl⟩
  | cons hab _ ih =>
    obtain ⟨c, hac, rfl⟩ := hab
    obtain ⟨cs, hcs, rfl⟩ := ih
    exact ⟨c :: cs, .cons hac hcs, rfl⟩

/-! ## Collecting results -/

theorem partitionResults_eq_iff {β : Type} {l : List (String × Except UnitError β)}
    {values : List β} :
    partitionResults l = (values, []) ↔ Forall₂ (fun e v => e.2 = .ok v) l values := by
  induction l generalizing values with
  | nil => simp [partitionResults, eq_comm]
  | cons e l ih =>
    obtain ⟨name, result⟩ := e
    cases result with
    | error failure =>
      cases values with
      | nil => simp [partitionResults]
      | cons v vs => simp [partitionResults]
    | ok value =>
      cases values with
      | nil => simp [partitionResults]
      | cons v vs => simp [partitionResults, ← ih, Prod.ext_iff, and_assoc]

/-- Results without failures are collected in order. -/
theorem collect_eq_ok_iff {α β γ : Type} {name : String} (f : List α → List β → γ)
    {sets : List (String × Except UnitError α)} {files : List (String × Except UnitError β)}
    {r : γ} :
    (if ((partitionResults sets).2 ++ (partitionResults files).2).isEmpty then
        Except.ok (f (partitionResults sets).1 (partitionResults files).1)
      else .error (⟨name, (partitionResults sets).2 ++ (partitionResults files).2⟩ : StageError)) =
        .ok r ↔
      ∃ as bs, Forall₂ (fun e a => e.2 = .ok a) sets as ∧
        Forall₂ (fun e b => e.2 = .ok b) files bs ∧ f as bs = r := by
  simp only [← partitionResults_eq_iff]
  generalize partitionResults sets = x
  generalize partitionResults files = y
  obtain ⟨as, failures⟩ := x
  obtain ⟨bs, failures'⟩ := y
  cases failures with
  | cons e es => simp
  | nil =>
    cases failures' with
    | cons e es => simp
    | nil => simp

theorem Stack.carry_eq_ok_iff {patches : Stack} {old new : Tree} {context : Nat}
    {r : Carried Tree Stack} :
    patches.carry old new context = .ok r ↔ patches.replay old = .ok r.old ∧
      patches.rebase old new context = .ok r.patches ∧ r.patches.replay new = .ok r.new := by
  unfold Stack.carry
  simp only [Except.bind_eq_ok_iff, Except.mapError_eq_ok_iff]
  constructor
  · rintro ⟨t, ht, q, hq, v, hv, hr⟩
    cases hr
    exact ⟨ht, hq, hv⟩
  · rintro ⟨ht, hq, hv⟩
    exact ⟨_, ht, _, hq, _, hv, rfl⟩

namespace SetUnit

variable {u : SetUnit} {d : Disk}

theorem derive_eq_ok_iff {input : Tree} {patches : Stack} {o : SetOutput} :
    u.derive input patches = .ok o ↔
      ∃ t, patches.replay (u.base input) = .ok t ∧ u.outputOf t = o := by
  rw [derive, Except.map_eq_ok_iff]
  simp only [Except.mapError_eq_ok_iff]

theorem apply_eq_ok_iff {input : Tree} {o : SetOutput} :
    u.apply d input = .ok o ↔ ∃ patches, u.stored d = .ok patches ∧
      u.derive input patches = .ok o :=
  Except.bind_eq_ok_iff

theorem rebase_eq_ok_iff {old new : Tree} {context : Nat} {c : Carried SetOutput SetPatches} :
    u.rebase d old new context = .ok c ↔ ∃ patches r, u.stored d = .ok patches ∧
      patches.carry (u.base old) (u.base new) context = .ok r ∧
      ⟨u.outputOf r.old, u.outputOf r.new, u.patchesOf r.patches⟩ = c := by
  unfold rebase
  simp only [Except.bind_eq_ok_iff]
  constructor
  · rintro ⟨patches, hpatches, r, hr, hc⟩
    exact ⟨patches, r, hpatches, hr, Except.ok.inj hc⟩
  · rintro ⟨patches, r, hpatches, hr, rfl⟩
    exact ⟨patches, hpatches, r, hr, rfl⟩

end SetUnit

theorem FileUnit.rebase_eq_ok_iff {u : FileUnit} {d : Disk} {old new : Tree} {context : Nat}
    {c : Carried FileOutput FilePatch} :
    u.rebase d old new context = .ok c ↔ ∃ patches r, u.stored d = .ok patches ∧
      patches.carry (u.base old) (u.base new) context = .ok r ∧
      ⟨u.outputOf r.old, u.outputOf r.new, u.patchOf r.patches⟩ = c := by
  unfold FileUnit.rebase
  simp only [Except.bind_eq_ok_iff]
  constructor
  · rintro ⟨patches, hpatches, r, hr, hc⟩
    exact ⟨patches, r, hpatches, hr, Except.ok.inj hc⟩
  · rintro ⟨patches, r, hpatches, hr, rfl⟩
    exact ⟨patches, hpatches, r, hr, rfl⟩

namespace Stage

variable {s : Stage} {d : Disk}

theorem run_eq_ok_iff {α β : Type} {onSet : SetUnit → Except UnitError α}
    {onFile : FileUnit → Except UnitError β} {r : List α × List β} :
    s.run onSet onFile = .ok r ↔
      Forall₂ (fun u a => onSet u = .ok a) s.sets r.1 ∧
        Forall₂ (fun u b => onFile u = .ok b) s.files r.2 := by
  unfold run
  dsimp only
  rw [collect_eq_ok_iff Prod.mk]
  simp only [List.forall₂_map_left_iff]
  constructor
  · rintro ⟨as, bs, has, hbs, rfl⟩
    exact ⟨has, hbs⟩
  · rintro ⟨has, hbs⟩
    exact ⟨r.1, r.2, has, hbs, rfl⟩

theorem apply_eq_ok_iff {input : Tree} {o : StageOutput} :
    s.apply d input = .ok o ↔ ∃ sets files,
      Forall₂ (fun u a => u.apply d input = .ok a) s.sets sets ∧
        Forall₂ (fun u b => u.apply d input = .ok b) s.files files ∧ ⟨s.name, sets, files⟩ = o := by
  unfold apply
  simp only [Except.bind_eq_ok_iff, run_eq_ok_iff]
  constructor
  · rintro ⟨r, ⟨hsets, hfiles⟩, ho⟩
    exact ⟨r.1, r.2, hsets, hfiles, Except.ok.inj ho⟩
  · rintro ⟨sets, files, hsets, hfiles, rfl⟩
    exact ⟨(sets, files), ⟨hsets, hfiles⟩, rfl⟩

theorem rebase_eq_ok_iff {old new : Tree} {context : Nat} {c : Carried StageOutput StagePatches} :
    s.rebase d old new context = .ok c ↔ ∃ sets files,
      Forall₂ (fun u a => u.rebase d old new context = .ok a) s.sets sets ∧
        Forall₂ (fun u b => u.rebase d old new context = .ok b) s.files files ∧
        ⟨⟨s.name, sets.map (·.old), files.map (·.old)⟩,
          ⟨s.name, sets.map (·.new), files.map (·.new)⟩,
          ⟨s.name, sets.map (·.patches), files.map (·.patches)⟩⟩ = c := by
  unfold rebase
  simp only [Except.bind_eq_ok_iff, run_eq_ok_iff]
  constructor
  · rintro ⟨r, ⟨hsets, hfiles⟩, hc⟩
    exact ⟨r.1, r.2, hsets, hfiles, Except.ok.inj hc⟩
  · rintro ⟨sets, files, hsets, hfiles, rfl⟩
    exact ⟨(sets, files), ⟨hsets, hfiles⟩, rfl⟩

theorem replay_eq_ok_iff {p : StagePatches} {input : Tree} {o : StageOutput} :
    s.replay p input = .ok o ↔ ∃ sets files,
      Forall₂ (fun e a => e.1.derive input e.2.patches = .ok a) (s.sets.zip p.sets) sets ∧
        Forall₂ (fun e b => e.1.replay input e.2 = .ok b) (s.files.zip p.files) files ∧
        ⟨s.name, sets, files⟩ = o := by
  unfold replay
  dsimp only
  rw [collect_eq_ok_iff (StageOutput.mk s.name)]
  simp only [List.forall₂_map_left_iff]

end Stage

end Patchwork
