import Patchwork.Proofs.Disk.Change
import Patchwork.Store.Basic

/-!
# When work on a disk succeeds

A computation succeeds exactly if its parts do, each on the disk that the part in front of it
leaves. Whatever every step of a loop preserves, the loop preserves (`each_induction`).
-/
namespace Patchwork.Store

variable {α β : Type} {d d' : Disk}

theorem run_eq {x : Store α} {result : Except StoreError α} (h : (x d).1 = result) :
    x d = (result, (x d).2) :=
  Prod.ext h rfl

theorem pure_eq_ok_iff {a b : α} : (pure a : Store α) d = (.ok b, d') ↔ a = b ∧ d = d' := by
  constructor
  · intro h
    obtain ⟨ha, hd⟩ := Prod.mk.inj (show (Except.ok a, d) = (Except.ok b, d') from h)
    exact ⟨Except.ok.inj ha, hd⟩
  · rintro ⟨rfl, rfl⟩
    rfl

theorem bind_eq_ok_iff {x : Store α} {f : α → Store β} {b : β} :
    (x >>= f) d = (.ok b, d') ↔ ∃ a d₁, x d = (.ok a, d₁) ∧ f a d₁ = (.ok b, d') := by
  have hbind : (x >>= f) d = ExceptT.bindCont f (x d).1 (x d).2 := rfl
  rw [hbind]
  obtain ⟨r, d₁⟩ := x d
  constructor
  · intro h
    cases r with
    | ok a => exact ⟨a, d₁, rfl, h⟩
    | error e => cases h
  · rintro ⟨a, d₂, hx, h⟩
    obtain ⟨rfl, rfl⟩ := Prod.mk.inj hx
    exact h

theorem bind_eq_error_iff {x : Store α} {f : α → Store β} {error : StoreError} :
    (x >>= f) d = (.error error, d') ↔
      x d = (.error error, d') ∨ ∃ a d₁, x d = (.ok a, d₁) ∧ f a d₁ = (.error error, d') := by
  have hbind : (x >>= f) d = ExceptT.bindCont f (x d).1 (x d).2 := rfl
  rw [hbind]
  obtain ⟨r, d₁⟩ := x d
  constructor
  · intro h
    cases r with
    | ok a => exact .inr ⟨a, d₁, rfl, h⟩
    | error e =>
      obtain ⟨he, rfl⟩ :=
        Prod.mk.inj (show ((Except.error e : Except StoreError β), d₁) = (.error error, d') from h)
      exact .inl (by rw [Except.error.inj he])
  · rintro (h | ⟨a, d₂, hx, h⟩)
    · obtain ⟨rfl, rfl⟩ := Prod.mk.inj h
      rfl
    · obtain ⟨rfl, rfl⟩ := Prod.mk.inj hx
      exact h

theorem inspect_eq_ok_iff {look : Disk → Except StoreError α} {a : α} :
    inspect look d = (.ok a, d') ↔ look d = .ok a ∧ d = d' :=
  Prod.mk.injEq .. ▸ Iff.rfl

theorem get_eq_ok_iff {a : Disk} : (get : Store Disk) d = (.ok a, d') ↔ d = a ∧ d = d' := by
  constructor
  · intro h
    obtain ⟨ha, hd⟩ := Prod.mk.inj (show (Except.ok d, d) = (Except.ok a, d') from h)
    exact ⟨Except.ok.inj ha, hd⟩
  · rintro ⟨rfl, rfl⟩
    rfl

theorem change_eq_ok_iff {p : DiskPath} {step : Disk → Except DiskFault Disk} :
    change p step d = (.ok (), d') ↔ step d = .ok d' := by
  unfold change
  constructor
  · intro h
    split at h
    · rename_i e he
      obtain ⟨-, rfl⟩ := Prod.mk.inj h
      exact he
    · cases h
  · intro h
    rw [h]

theorem of_attempt {step : Disk → Except DiskFault Disk} (h : attempt step d = (.ok (), d')) :
    step d = .ok d' ∨ d = d' := by
  unfold attempt at h
  split at h
  · rename_i e he
    obtain ⟨-, rfl⟩ := Prod.mk.inj h
    exact .inl he
  · exact .inr (Prod.mk.inj h).2

theorem each_cons_eq_ok_iff {step : α → Store Unit} {a : α} {as : List α} :
    each step (a :: as) d = (.ok (), d') ↔
      ∃ d₁, step a d = (.ok (), d₁) ∧ each step as d₁ = (.ok (), d') := by
  rw [each, bind_eq_ok_iff]
  exact ⟨fun ⟨_, d₁, ha, has⟩ => ⟨d₁, ha, has⟩, fun ⟨d₁, ha, has⟩ => ⟨(), d₁, ha, has⟩⟩

theorem each_append_eq_ok_iff {step : α → Store Unit} {as bs : List α} :
    each step (as ++ bs) d = (.ok (), d') ↔
      ∃ d₁, each step as d = (.ok (), d₁) ∧ each step bs d₁ = (.ok (), d') := by
  induction as generalizing d with
  | nil =>
    constructor
    · exact fun h => ⟨d, rfl, h⟩
    · rintro ⟨d₁, h, hbs⟩
      obtain ⟨-, rfl⟩ := pure_eq_ok_iff.1 h
      exact hbs
  | cons a as ih =>
    simp only [List.cons_append, each_cons_eq_ok_iff, ih]
    constructor
    · rintro ⟨d₂, ha, d₁, has, hbs⟩
      exact ⟨d₁, ⟨d₂, ha, has⟩, hbs⟩
    · rintro ⟨d₁, ⟨d₂, ha, has⟩, hbs⟩
      exact ⟨d₂, ha, d₁, has, hbs⟩

/-- A list is gone through if every step can be taken where an invariant holds, which it then goes
on to do. -/
theorem exists_each_of_invariant {step : α → Store Unit} {inv : Disk → Prop} {as : List α}
    (hstep : ∀ a ∈ as, ∀ d, inv d → ∃ e, step a d = (.ok (), e) ∧ inv e) (h : inv d) :
    ∃ e, each step as d = (.ok (), e) ∧ inv e := by
  induction as generalizing d with
  | nil => exact ⟨d, rfl, h⟩
  | cons a as ih =>
    obtain ⟨d₁, ha, h⟩ := hstep a (by simp) d h
    obtain ⟨e, has, h⟩ := ih (fun b hb => hstep b (by simp [hb])) h
    exact ⟨e, each_cons_eq_ok_iff.2 ⟨d₁, ha, has⟩, h⟩

/-- What every step preserves is preserved by going through a list. -/
theorem each_induction {step : α → Store Unit} {motive : Disk → Disk → Prop}
    (refl : ∀ d, motive d d) (trans : ∀ d e f, motive d e → motive e f → motive d f)
    {as : List α} (hstep : ∀ a ∈ as, ∀ d e, step a d = (.ok (), e) → motive d e)
    (h : each step as d = (.ok (), d')) : motive d d' := by
  induction as generalizing d with
  | nil =>
    obtain ⟨-, rfl⟩ := pure_eq_ok_iff.1 h
    exact refl d
  | cons a as ih =>
    obtain ⟨d₁, ha, h⟩ := each_cons_eq_ok_iff.1 h
    exact trans _ _ _ (hstep a (by simp) _ _ ha) (ih (fun b hb => hstep b (by simp [hb])) h)

/-! ## Files -/

theorem makeDirectories_eq_ok_iff {p : DiskPath} :
    makeDirectories p d = (.ok (), d') ↔ d.makeDirectories p = (d', none) := by
  unfold makeDirectories
  constructor
  · intro h
    split at h
    · rename_i e he
      obtain ⟨-, rfl⟩ := Prod.mk.inj h
      exact he
    · cases h
  · intro h
    rw [h]

/-- What has been made stays, whether or not all could be made. -/
theorem snd_makeDirectories (p : DiskPath) (d : Disk) :
    (makeDirectories p d).2 = (d.makeDirectories p).1 := by
  unfold makeDirectories
  split <;> simp [*]

theorem extends_of_makeDirectories {p : DiskPath} {result : Except StoreError Unit}
    (h : makeDirectories p d = (result, d')) : d.Extends d' := by
  have hextends := d.extends_makeDirectories p
  rwa [← snd_makeDirectories, h] at hextends

theorem setsFile_of_putFile {p : DiskPath} {content : Content}
    (h : putFile p content d = (.ok (), d')) :
    ∃ (e : Disk) (l : Location), e.locate p = .ok l ∧ d.SetsFile d' l (some content) := by
  obtain ⟨_, e, hmake, h⟩ := bind_eq_ok_iff.1 h
  obtain ⟨l, hl, hset⟩ := Disk.setsFile_of_renameInto (change_eq_ok_iff.1 h)
  exact ⟨e, l, hl, (extends_of_makeDirectories hmake).trans_setsFile hset⟩

theorem content_of_putFile {p : DiskPath} {content : Content}
    (h : putFile p content d = (.ok (), d')) :
    d'.content p = .ok content := by
  obtain ⟨_, e, -, h⟩ := bind_eq_ok_iff.1 h
  exact Disk.content_of_renameInto (change_eq_ok_iff.1 h)

theorem of_dropFile {p : DiskPath} (h : dropFile p d = (.ok (), d')) :
    (∃ l, d.locate p = .ok l ∧ d.SetsFile d' l none) ∨
      d = d' ∧ (d.locate p = .error .notFound ∨ ∃ l, d.locate p = .ok l ∧ d.node? l = none) := by
  unfold dropFile at h
  split at h
  · rename_i e he
    obtain ⟨-, rfl⟩ := Prod.mk.inj h
    exact .inl (Disk.setsFile_of_dropFile he)
  · rename_i hlost
    obtain ⟨-, rfl⟩ := Prod.mk.inj h
    exact .inr ⟨rfl, Disk.missing_of_dropFile hlost⟩
  · cases h

/-- Going through a list in which every step puts or drops one file. -/
theorem setsFiles_of_each {step : α → Store Unit} {change : α → Location × Option Content}
    {as : List α}
    (hstep : ∀ a ∈ as, ∀ e f, d.KeepsDirectories e → step a e = (.ok (), f) →
      e.SetsFile f (change a).1 (change a).2)
    (hagree : ∀ a ∈ as, ∀ b ∈ as, (change a).1 = (change b).1 → (change a).2 = (change b).2)
    (h : each step as d = (.ok (), d')) : d.SetsFiles d' (as.map change) := by
  induction as generalizing d with
  | nil =>
    obtain ⟨-, rfl⟩ := pure_eq_ok_iff.1 h
    exact .nil d
  | cons a as ih =>
    obtain ⟨d₁, ha, h⟩ := each_cons_eq_ok_iff.1 h
    have hset := hstep a (by simp) d d₁ (.refl d) ha
    have hrest := ih
      (fun b hb e f hkeeps => hstep b (by simp [hb]) e f (hset.directories.trans hkeeps))
      (fun b hb c hc => hagree b (by simp [hb]) c (by simp [hc])) h
    refine hset.cons hrest fun c hc heq => ?_
    obtain ⟨b, hb, rfl⟩ := List.mem_map.1 hc
    exact hagree b (by simp [hb]) a (by simp) heq

theorem exists_of_mem_each {step : α → Store Unit} {as : List α} {a : α} (ha : a ∈ as)
    (h : each step as d = (.ok (), d')) : ∃ e f, step a e = (.ok (), f) := by
  induction as generalizing d with
  | nil => cases ha
  | cons b as ih =>
    obtain ⟨d₁, hb, h⟩ := each_cons_eq_ok_iff.1 h
    rcases List.mem_cons.1 ha with rfl | ha
    · exact ⟨d, d₁, hb⟩
    · exact ih ha h

theorem exists_locate_of_file? {p : DiskPath} {content : Content}
    (h : file? p d = .ok (some content)) :
    ∃ l, d.locate p = .ok l ∧ d.file? l = some content := by
  unfold file? at h
  split at h
  · rename_i content' hcontent
    obtain rfl := Option.some.inj (Except.ok.inj h)
    exact Disk.content_eq_ok_iff.1 hcontent
  · cases h
  · cases h

end Patchwork.Store
