import Patchwork.Proofs.Store.Frame
import Patchwork.Proofs.Store.Series
import Patchwork.Proofs.Store.TreeWrite
import Patchwork.Proofs.Tree.Region

/-!
# Trees that cannot be written

Whatever is built up for a tree lies in a new directory, which goes when the tree cannot be written.
What was set aside at the destination is put back then, whatever it was that could not take its
place (`eq_of_replaceBy_error`). Both take a path that still leads to the directory of the
destination once the destination is set aside. Otherwise what was there is lost
(`not_forall_keepsFiles_of_writeTree_error`).
-/
namespace Patchwork

namespace Disk

variable {d e f : Disk} {l : Location}

/-- Nothing has changed but that there is a directory where nothing was. -/
structure AddsRegion (d e : Disk) (l : Location) : Prop where
  fresh : d.node? l = none
  isDirectory : e.node? l = some .directory
  node?_eq : ∀ m, ¬ l <+: m → e.node? m = d.node? m

theorem AddsDirectory.addsRegion (h : d.AddsDirectory e l) : d.AddsRegion e l :=
  ⟨h.fresh, h.isDirectory, fun _ hm => h.node?_of_not_prefix hm⟩

namespace AddsRegion

theorem trans (h : d.AddsRegion e l) (hwithin : e.ChangesWithin f {l})
    (hkeeps : e.KeepsDirectories f) :
    d.AddsRegion f l where
  fresh := h.fresh
  isDirectory := hkeeps l h.isDirectory
  node?_eq m hm :=
    (hwithin.node?_eq_of_ne_none (by simp [h.isDirectory]) hm).trans (h.node?_eq m hm)

theorem reaches {p : DiskPath} {dir : Location} (h : d.AddsRegion e l) (hp : d.Reaches p dir) :
    e.Reaches p dir := by
  have hpast : ∀ k ∈ ({l} : Set Location), p.LeadsPast k := fun k hk => hk ▸ hp.leadsPast h.fresh
  refine hp.of_leadsPast hpast fun m hm hdir => ?_
  rw [h.node?_eq m (hm l rfl), hdir]

end AddsRegion

end Disk

namespace Store

open Disk
open PatchDirectory (diskOfFiles)

variable {d d' e f moved : Disk} {p dest : DiskPath} {dir l names : Location}
  {name staged kept : FileName} {t : Tree} {error : StoreError}

/-! ## New directories that go again -/

/-- A computation with a new directory fails if that cannot be made, or if it fails once the
directory was made, which is then removed if it can be. -/
theorem of_withNewDirectory_error {α : Type} {stem : String} (hlong : 2 < stem.toList.length)
    (hsep : '/' ∉ stem.toList) {body : DiskPath → Store α}
    (h : withNewDirectory p stem body d = (.error error, d')) :
    d' = d ∨ ∃ (name : FileName) (d₁ d₂ : Disk), d.makeDirectory (p.belowNames [name]) = .ok d₁ ∧
      body (p.belowNames [name]) d₁ = (.error error, d₂) ∧
        d' = (attempt (·.dropAll (p.belowNames [name])) d₂).2 := by
  unfold withNewDirectory at h
  dsimp only at h
  split at h
  · exact .inl (Prod.mk.inj h).2.symm
  · rename_i d₁ hmake
    obtain ⟨hresult, rfl⟩ := Prod.mk.inj h
    exact .inr ⟨⟨freshName stem d, isFileName_freshName hlong hsep d⟩, d₁, _, hmake,
      Prod.ext hresult rfl, rfl⟩

theorem attempt_eq (step : Disk → Except DiskFault Disk) (d : Disk) :
    attempt step d = (.ok (), (attempt step d).2) := by
  refine run_eq ?_
  unfold attempt
  split <;> rfl

theorem dropAll_of_addsRegion (hp : d.Reaches p dir) (h : d.AddsRegion e (dir ++ [name]))
    (hl : f.locate (p.belowNames [name]) = .ok l) :
    (attempt (·.dropAll (p.belowNames [name])) e).2 = d := by
  refine ext_node? fun m => ?_
  rw [node?_of_dropAll (h.reaches hp) hl (attempt_eq ..)]
  split_ifs with hm
  · exact (node?_of_prefix_of_none h.fresh hm).symm
  · exact h.node?_eq m hm

/-- If a computation with a new directory fails, all is as before, as long as the computation has
changed nothing but that directory. -/
theorem eq_of_withNewDirectory_error {α : Type} {stem : String} (hlong : 2 < stem.toList.length)
    (hsep : '/' ∉ stem.toList) {body : DiskPath → Store α}
    (hbody : ∀ dir name e f, d.Reaches p dir → d.AddsDirectory e (dir ++ [name]) →
      body (p.belowNames [name]) e = (.error error, f) → d.AddsRegion f (dir ++ [name]))
    (h : withNewDirectory p stem body d = (.error error, d')) : d' = d := by
  rcases of_withNewDirectory_error hlong hsep h with rfl | ⟨name, e, f, hmake, hfailed, rfl⟩
  · rfl
  obtain ⟨dir, hp⟩ := exists_reaches_of_makeDirectory hmake
  obtain ⟨hl, hnew⟩ := addsDirectory_of_makeDirectory hp hmake
  exact dropAll_of_addsRegion hp (hbody dir name e f hp hnew hfailed) hl

/-- A file of a tree changes its own place at most, also where it cannot be put there. -/
theorem changesWithin_placeFile {q : DiskPath} {c : TreePath × Content} (hp : d.Reaches p dir)
    (hnames : names ≠ []) (hplace : q.below c.1 = p.belowNames names) :
    d.ChangesWithin (placeFile q c d).2 {dir ++ names} ∧ d.KeepsDirectories
      (placeFile q c d).2 := by
  have hmade : d.ChangesWithin (makeDirectories (p.belowNames names).directory d).2 {dir ++ names} ∧
      d.KeepsDirectories (makeDirectories (p.belowNames names).directory d).2 := by
    obtain ⟨init, name, rfl⟩ := (List.eq_nil_or_concat' names).resolve_left hnames
    rw [snd_makeDirectories]
    exact ⟨changesWithin_makeDirectories hp init name, (d.extends_makeDirectories _).directories⟩
  unfold placeFile
  rw [hplace]
  refine of_bind (motive := fun e => d.ChangesWithin e {dir ++ names} ∧ d.KeepsDirectories e) hmade
    fun _ e hresult => ?_
  rw [hresult] at hmade
  unfold change
  split
  · rename_i f hput
    have hplaced := (hp.mono hmade.2).replaces_of_putFile hnames hput
    exact ⟨hmade.1.trans hplaced.within, hmade.2.trans hplaced.directories⟩
  · exact hmade

theorem addsRegion_placeFiles (hp : d.Reaches p dir) (hkeys : ∀ key ∈ t.keys, key.IsNormal)
    (h : d.AddsRegion e (dir ++ [staged])) :
    d.AddsRegion (each (placeFile (p.belowNames [staged])) t.toList e).2 (dir ++ [staged]) := by
  refine of_each (motive := fun e => d.AddsRegion e (dir ++ [staged])) (fun c hc e h => ?_) h
  have hplace : (p.belowNames [staged]).below c.1 = p.belowNames (staged :: c.1.location) := by
    rw [DiskPath.below_eq _ (hkeys c.1 (List.mem_map_of_mem hc))]
    rfl
  obtain ⟨hwithin, hkeeps⟩ := changesWithin_placeFile (h.reaches hp) (by simp) hplace
  refine h.trans (hwithin.mono fun l hl => ⟨_, rfl, ?_⟩) hkeeps
  rw [hl]
  exact (List.prefix_append_right_inj dir).2 ⟨_, rfl⟩

/-! ## Putting back -/

/-- What was set aside can be put back as long as its directory is reached. -/
theorem move_back (hdest : dest.EndsIn name) (hq : d.Reaches dest.directory dir)
    (hempty : d.node? (dir ++ [kept] ++ [previousName]) = none)
    (haside : d.move dest ((dest.directory.belowNames [kept]).join ⟨"previous"⟩) = .ok moved)
    (hreach : moved.Reaches dest.directory dir) :
    moved.move ((dest.directory.belowNames [kept]).join ⟨"previous"⟩) dest = .ok d := by
  have hplace : (dest.directory.belowNames [kept]).join ⟨"previous"⟩ =
      dest.directory.belowNames [kept, previousName] := rfl
  obtain ⟨⟨hdots, hdots'⟩, _, dst, -, hdst, -⟩ := move_eq_ok_iff.1 haside
  obtain ⟨hsrc, hmove⟩ := moveTo_of_setAside hdest hq haside
  obtain ⟨hnone, -⟩ := node?_of_setAside hmove
  have hback := moveTo_back hmove hempty
  obtain ⟨node, hnode⟩ := Option.ne_none_iff_exists'.1 (node?_ne_none_of_moveTo hback)
  refine move_eq_ok_iff.2 ⟨⟨hdots', hdots⟩, _, _, ?_, ?_, hback⟩
  · rw [hplace] at hdst ⊢
    rw [List.append_assoc] at hnode ⊢
    exact hreach.locate_belowNames (by simp) hdst hnode
  · exact hreach.locate_of_endsIn hdest hsrc fun content => by simp [hnone]

/-- If a directory cannot take the place of the destination, what was there is put back. -/
theorem eq_of_swap_error {staging : DiskPath} (hpast : dest.LeadsPastItself)
    (hq : d.Reaches dest.directory dir) (hqKept : dest.directory.LeadsPast (dir ++ [kept]))
    (hempty : d.node? (dir ++ [kept] ++ [previousName]) = none)
    (h : swap staging (dest.directory.belowNames [kept]) dest d = (.error error, d')) : d' = d := by
  unfold swap at h
  dsimp only at h
  split at h
  · exact (Prod.mk.inj h).2.symm
  rename_i moved haside
  split at h
  · cases h
  obtain ⟨-, rfl⟩ := Prod.mk.inj h
  split_ifs at haside ⊢ with hholds
  · have hdots := (move_eq_ok_iff.1 haside).1.1
    obtain ⟨name, hdest⟩ := DiskPath.exists_endsIn hdots
    obtain ⟨hl, hmove⟩ := moveTo_of_setAside hdest hq haside
    have hpasts : ∀ l ∈ ({dir ++ [name], dir ++ [kept]} : Set Location),
        dest.directory.LeadsPast l := by
      rintro l (rfl | rfl)
      · exact hpast hdots _ (location?_of_locate hl)
      · exact hqKept
    have hreach : moved.Reaches dest.directory dir := by
      refine hq.of_leadsPast hpasts fun m hm hdir => ?_
      rw [(node?_of_setAside hmove).2.2 m (hm _ (.inl rfl)) (hm _ (.inr rfl)), hdir]
    rw [move_back hdest hq hempty haside hreach]
    rfl
  · rfl

/-- The backup is made and removed on the way, so all is as before. -/
theorem eq_of_replaceBy_error {staging : DiskPath} (hpast : dest.LeadsPastItself)
    (h : replaceBy staging dest d = (.error error, d')) : d' = d := by
  refine eq_of_withNewDirectory_error (by decide) (by decide) ?_ h
  intro dir kept e f hq hnew hswap
  obtain rfl := eq_of_swap_error hpast (hq.mono hnew.keepsDirectories) (hq.leadsPast hnew.fresh)
    (hnew.node?_below previousName []) hswap
  exact hnew.addsRegion

/-- What is built up goes if it cannot be completed, or cannot take the place of the destination. -/
theorem eq_of_replaceTree_error (hpast : dest.LeadsPastItself)
    (hkeys : ∀ key ∈ t.keys, key.IsNormal)
    (h : withNewDirectory dest.directory stagingStem (fun staging => do
      each (placeFile staging) t.toList
      replaceBy staging dest) d = (.error error, d')) : d' = d := by
  refine eq_of_withNewDirectory_error (by decide) (by decide) ?_ h
  intro dir staged e f hq hnew hbody
  have hbuilt := addsRegion_placeFiles hq hkeys hnew.addsRegion
  rcases bind_eq_error_iff.1 hbody with hplace | ⟨_, e', hplace, hreplace⟩
  · rwa [hplace] at hbuilt
  · rw [hplace] at hbuilt
    rwa [eq_of_replaceBy_error hpast hreplace]

/-! ## Writing a tree -/

/-- If a tree cannot be written, nothing but the directory of the destination has been made. -/
theorem eq_of_writeTree_error (hpast : dest.LeadsPastItself) (hkeys : ∀ key ∈ t.keys, key.IsNormal)
    (h : writeTree t dest d = (.error error, d')) :
    d' = (d.makeDirectories dest.directory).1 := by
  rcases bind_eq_error_iff.1 h with hmake | ⟨_, d₁, hmake, hreplace⟩
  · exact (congrArg Prod.snd hmake).symm.trans (snd_makeDirectories ..)
  · rw [eq_of_replaceTree_error hpast hkeys hreplace, makeDirectories_eq_ok_iff.1 hmake]

/-- A tree that is written is what lies at the destination. If it cannot be written, no file has
changed, and what was at the destination is there again: whatever was to take its place, it is put
back. In both cases nothing else changes but that the directory of the destination is made. What is
said of failures is for destinations whose path does not lead through the destination itself. -/
theorem writeTree_replaces_or_restores (ht : t.HasNormalPaths) :
    (∀ d', writeTree t dest d = (.ok (), d') →
      ∃ l, d'.locate dest = .ok l ∧ d'.HoldsTree l t ∧ d.MakesWay d' dest.directory {l}) ∧
    (dest.LeadsPastItself →
      (∀ error d', writeTree t dest d = (.error error, d') →
        d.KeepsFiles d' ∧ d.MakesWay d' dest.directory ∅) ∧
      ∀ staging error d', replaceBy staging dest d = (.error error, d') → d' = d) := by
  have hway := d.makesWay_makeDirectories dest.directory
  refine ⟨fun d' h => ?ok, fun hpast => ⟨fun error d' h => ?error, fun staging error d' h => ?back⟩⟩
  case ok =>
    obtain ⟨l, hl, htree, hother⟩ := exists_of_writeTree ht h
    exact ⟨l, hl, htree, hway.of_node?_eq fun m hm => hother m (hm l rfl)⟩
  case error =>
    obtain rfl := eq_of_writeTree_error hpast ht h
    exact ⟨hway.keepsFiles, hway⟩
  case back => exact eq_of_replaceBy_error hpast h

/-- A directory is replaced. A tree in which a file would lie in another file is not written, nor is
one below a file, and what is not there cannot take the place of a directory. -/
theorem writeTree_replaces_or_restores_runs :
    let d := diskOfFiles [("out/old/x", "1"), ("out/y", "2"), ("file", "3")]
    let t : Tree := .ofList [(⟨"a/b"⟩, .ofText "4"), (⟨"c"⟩, .ofText "5")]
    let clash : Tree := .ofList [(⟨"a"⟩, .ofText "6"), (⟨"a/b"⟩, .ofText "7")]
    (∃ d', writeTree t ⟨"out"⟩ d = (.ok (), d') ∧
      ∃ l, d'.locate ⟨"out"⟩ = .ok l ∧ d'.HoldsTree l t ∧
        d.MakesWay d' (DiskPath.directory ⟨"out"⟩) {l}) ∧
    (∃ d', writeTree clash ⟨"new/../out"⟩ d =
      (.error (.io ⟨"new/../.forkpatch-staging-0/a"⟩ .alreadyExists), d') ∧ d.KeepsFiles d') ∧
    (∃ d', writeTree t ⟨"file/out"⟩ d = (.error (.io ⟨"file"⟩ .alreadyExists), d') ∧
      d.KeepsFiles d') ∧
    replaceBy ⟨"absent"⟩ ⟨"out"⟩ d = (.error (.io ⟨"out"⟩ .notFound), d) := by
  intro d t clash
  have ht : t.HasNormalPaths := by decide +kernel
  have hclash : clash.HasNormalPaths := by decide +kernel
  have hpast : DiskPath.LeadsPastItself ⟨"out"⟩ := leadsPastItself_of_up_notMem (by decide +kernel)
  have hpastAround : DiskPath.LeadsPastItself ⟨"new/../out"⟩ := by decide +kernel
  have hpastBelow : DiskPath.LeadsPastItself ⟨"file/out"⟩ :=
    leadsPastItself_of_up_notMem (by decide +kernel)
  have hwritten : (writeTree t ⟨"out"⟩ d).1 = .ok () := by decide +kernel
  have hfailed : (writeTree clash ⟨"new/../out"⟩ d).1 =
      .error (.io ⟨"new/../.forkpatch-staging-0/a"⟩ .alreadyExists) := by decide +kernel
  have hblocked : (writeTree t ⟨"file/out"⟩ d).1 = .error (.io ⟨"file"⟩ .alreadyExists) := by
    decide +kernel
  have habsent : (replaceBy ⟨"absent"⟩ ⟨"out"⟩ d).1 = .error (.io ⟨"out"⟩ .notFound) := by
    decide +kernel
  refine ⟨⟨_, run_eq hwritten, ?_⟩, ⟨_, run_eq hfailed, ?_⟩, ⟨_, run_eq hblocked, ?_⟩, ?_⟩
  · exact (writeTree_replaces_or_restores ht).1 _ (run_eq hwritten)
  · exact (((writeTree_replaces_or_restores hclash).2 hpastAround).1 _ _ (run_eq hfailed)).1
  · exact (((writeTree_replaces_or_restores ht).2 hpastBelow).1 _ _ (run_eq hblocked)).1
  · have hrun := run_eq habsent
    have hback := ((writeTree_replaces_or_restores ht).2 hpast).2 ⟨"absent"⟩ _ _ hrun
    rw [hrun, hback]

/-- Where the path leads through the destination and up again, it leads nowhere once the destination
is set aside. So nothing is put back, and what was built up and set aside is not removed. -/
theorem not_forall_keepsFiles_of_writeTree_error :
    ¬ ∀ (t : Tree) (dest : DiskPath) (d d' : Disk) (error : StoreError), t.HasNormalPaths →
      writeTree t dest d = (.error error, d') → d.KeepsFiles d' := by
  intro h
  let d := diskOfFiles [("out/x", "1")]
  let t : Tree := .ofList [(⟨"a"⟩, .ofText "2")]
  have hfailed : (writeTree t ⟨"out/../out"⟩ d).1 = .error (.io ⟨"out/../out"⟩ .notFound) := by
    decide +kernel
  have hkept := h t ⟨"out/../out"⟩ d _ _ (by decide +kernel) (run_eq hfailed)
  exact absurd (hkept (TreePath.location ⟨"out/x"⟩)) (by decide +kernel)

end Store

end Patchwork
