import Patchwork.Proofs.Store.PatchRead

/-!
# What stays whatever comes of a computation

A computation that fails has done a part of its work. A file that none of its steps puts or drops is
there with the same content all the same (`Store.KeepsFile`). Writing a patch directory keeps every
file that does not lie below it (`PatchDirectory.keepsFile_write`).
-/
namespace Patchwork

variable {d e : Disk} {l : Location}

namespace Store

variable {α β : Type}

/-- What a computation leaves holds if it holds where the first part ends and, if that succeeds,
where the second does. -/
theorem of_bind {motive : Disk → Prop} {x : Store α} {f : α → Store β} (hx : motive (x d).2)
    (hf : ∀ a e, x d = (.ok a, e) → motive (f a e).2) : motive ((x >>= f) d).2 := by
  have hbind : (x >>= f) d = ExceptT.bindCont f (x d).1 (x d).2 := rfl
  rw [hbind]
  rcases hresult : x d with ⟨error | a, e⟩
  · rwa [hresult] at hx
  · exact hf a e hresult

/-- What every step preserves holds in the end, also if a step fails. -/
theorem of_each {motive : Disk → Prop} {step : α → Store Unit} {as : List α}
    (hstep : ∀ a ∈ as, ∀ d, motive d → motive (step a d).2) (h : motive d) :
    motive (each step as d).2 := by
  induction as generalizing d with
  | nil => exact h
  | cons a as ih =>
    have ha := hstep a (by simp) d h
    refine of_bind ha fun _ e hresult => ih (fun b hb => hstep b (by simp [hb])) ?_
    rwa [hresult] at ha

/-- The file at a location stays as it is, whether the computation succeeds or fails. -/
def KeepsFile (l : Location) (x : Store α) (d : Disk) : Prop :=
  ∀ content, d.file? l = some content → (x d).2.file? l = some content

namespace KeepsFile

theorem of_eq {x : Store α} (h : (x d).2 = d) : x.KeepsFile l d := fun _ hfile => h.symm ▸ hfile

theorem pure {a : α} : KeepsFile l (Pure.pure a) d := of_eq rfl

theorem throw {error : StoreError} : KeepsFile (α := α) l (MonadExcept.throw error) d := of_eq rfl

theorem inspect {look : Disk → Except StoreError α} : KeepsFile l (Store.inspect look) d :=
  of_eq rfl

theorem bind {x : Store α} {f : α → Store β} (hx : x.KeepsFile l d)
    (hf : ∀ a e, x d = (.ok a, e) → (f a).KeepsFile l e) : KeepsFile l (x >>= f) d := by
  intro content hfile
  have hkept := hx content hfile
  refine of_bind (motive := fun e => e.file? l = some content) hkept fun a e hresult =>
    hf a e hresult content ?_
  rwa [hresult] at hkept

theorem each {step : α → Store Unit} {as : List α} (h : ∀ a ∈ as, ∀ e, (step a).KeepsFile l e) :
    (Store.each step as).KeepsFile l d := fun content =>
  of_each (motive := fun e => e.file? l = some content) fun a ha e => h a ha e content

theorem makeDirectories {p : DiskPath} : (Store.makeDirectories p).KeepsFile l d := by
  intro content hfile
  have hextends : d.Extends (Store.makeDirectories p d).2 := extends_of_makeDirectories rfl
  rwa [hextends.files]

theorem change {p : DiskPath} {step : Disk → Except DiskFault Disk}
    (h : ∀ e, step d = .ok e → e.file? l = d.file? l) : (Store.change p step).KeepsFile l d := by
  intro content hfile
  unfold Store.change
  split
  · rename_i e he
    rwa [h e he]
  · exact hfile

theorem putFile {p : DiskPath} {content : Content} (h : p.location? ≠ some l) :
    (Store.putFile p content).KeepsFile l d := by
  refine .bind .makeDirectories fun _ e _ => .change fun f hf => ?_
  obtain ⟨m, hm, hset⟩ := Disk.setsFile_of_renameInto hf
  rw [hset.file?_eq, if_neg]
  rintro rfl
  exact h (Disk.location?_of_locate hm)

theorem dropFile {p : DiskPath} (h : p.location? ≠ some l) : (Store.dropFile p).KeepsFile l d := by
  intro content hfile
  unfold Store.dropFile
  split
  · rename_i e he
    obtain ⟨m, hm, hset⟩ := Disk.setsFile_of_dropFile he
    rwa [hset.file?_eq, if_neg]
    rintro rfl
    exact h (Disk.location?_of_locate hm)
  · exact hfile
  · exact hfile

end KeepsFile

theorem keepsFiles_attempt {step : Disk → Except DiskFault Disk}
    (h : ∀ e, step d = .ok e → d.KeepsFiles e) :
    d.KeepsFiles (attempt step d).2 := by
  unfold attempt
  split
  · rename_i e he
    exact h e he
  · exact .refl d

theorem keepsFiles_of_putFile {p : DiskPath} {content : Content} {error : StoreError}
    (h : Store.putFile p content d = (.error error, e)) : d.KeepsFiles e := by
  rcases bind_eq_error_iff.1 h with hmake | ⟨_, d₁, hmake, hput⟩
  · exact (extends_of_makeDirectories hmake).files
  · have hfiles := (extends_of_makeDirectories hmake).files
    unfold change at hput
    split at hput
    · cases hput
    · exact (Prod.mk.inj hput).2 ▸ hfiles

end Store

namespace PatchDirectory

open Store (KeepsFile of_bind of_each)

variable {p : PatchDirectory} {s : Stack}

theorem keepsFiles_prune (p : PatchDirectory) (d : Disk) : d.KeepsFiles (p.prune d).2 := by
  refine of_bind (motive := d.KeepsFiles) (.refl d) fun _ e hlook => ?_
  obtain ⟨-, rfl⟩ := Store.inspect_eq_ok_iff.1 hlook
  refine of_bind (motive := d.KeepsFiles) (.refl d) fun _ e hget => ?_
  obtain ⟨rfl, rfl⟩ := Store.get_eq_ok_iff.1 hget
  refine of_each (fun visit _ e h => h.trans ?_) (.refl d)
  cases visit with
  | enter names =>
    refine of_bind (motive := e.KeepsFiles) (.refl e) fun _ f hlook => ?_
    obtain ⟨-, rfl⟩ := Store.inspect_eq_ok_iff.1 hlook
    exact .refl e
  | leave names =>
    refine Store.keepsFiles_attempt fun f hf => ?_
    obtain ⟨m, -, hdrop⟩ := Except.bind_eq_ok_iff.1 hf
    exact Disk.keepsFiles_of_dropEmptyDirectory hdrop

theorem keepsFile_prune : p.prune.KeepsFile l d :=
  fun _ hfile => (keepsFiles_prune p d l).trans hfile

theorem keepsFile_writePatch {patch : StoredPatch}
    (h : (p.root.below (fileOf patch.target)).location? ≠ some l) :
    (p.writePatch patch).KeepsFile l d := by
  refine .bind .inspect fun _ _ _ => ?_
  split_ifs
  · exact .putFile h
  · exact .pure

/-- Whether or not a stack is written as a whole, every file stays that does not lie below the
root. -/
theorem keepsFile_write (htargets : ∀ patch ∈ s, patch.target.IsFilePath)
    (hroot : ∀ dir ∈ p.root.location?, dir <+: l → dir = l) : (p.write s).KeepsFile l d := by
  unfold write
  split
  · exact .bind .throw fun _ _ hthrow => by cases hthrow
  refine .bind .makeDirectories fun _ d hmake => .bind .inspect fun found e hlook => ?_
  obtain ⟨hfound, rfl⟩ := Store.inspect_eq_ok_iff.1 hlook
  intro content hfile
  obtain ⟨dir, hreach, -⟩ := reaches_of_makeDirectories hmake hfound
  -- The root is a directory by now, so the file is not there either.
  have hnot : ¬ dir <+: l := by
    intro hprefix
    obtain rfl := hroot dir hreach.location?_eq hprefix
    rw [Disk.file?_of_directory hreach.isDirectory] at hfile
    cases hfile
  have hbelow : ∀ names, (p.root.belowNames names).location? ≠ some l := by
    intro names hl
    obtain ⟨dir', hdir', rfl⟩ := Disk.exists_of_location?_belowNames hl
    obtain rfl := Option.some.inj (hreach.location?_eq.symm.trans hdir')
    exact hnot (List.prefix_append _ _)
  refine (?_ : KeepsFile l _ d) content hfile
  refine .bind (.each fun file hmem e => .dropFile ?stale) fun _ _ _ =>
    .bind (.each fun patch hpatch e => keepsFile_writePatch ?patch) fun _ _ _ =>
      .bind (.of_eq rfl) fun _ _ _ => ?_
  case stale =>
    rw [DiskPath.below_eq _ (isNormal_of_mem_files hfound file (List.mem_filter.1 hmem).1)]
    exact hbelow _
  case patch =>
    rw [below_fileOf (htargets patch hpatch)]
    exact hbelow _
  split_ifs
  · exact .bind (.putFile (hbelow [seriesName])) fun _ _ _ => keepsFile_prune
  · exact keepsFile_prune

end PatchDirectory

end Patchwork
