import Patchwork.Proofs.Store.Place
import Patchwork.Proofs.Store.Tree

/-!
# What lies where a tree was written

A tree that is written is what lies at its place afterwards, and nothing else changes but that the
directory of the place is made (`exists_of_writeTree`). The directories that it goes through on its
way there were not there before and are gone again.
-/
namespace Patchwork

open TreePath (ofLocation)

theorem Text.toList_pushn (s : String) (c : Char) (n : Nat) :
    (s.pushn c n).toList = s.toList ++ List.replicate n c := by
  induction n with
  | zero => simp [String.pushn, Nat.repeat]
  | succ n ih =>
    have hpush : s.pushn c (n + 1) = (s.pushn c n).push c := rfl
    rw [hpush, String.toList_push, ih, List.replicate_succ', List.append_assoc]

namespace Disk

/-- A directory is made where nothing was, and nothing else changes. -/
structure AddsDirectory (d e : Disk) (l : Location) : Prop where
  fresh : d.node? l = none
  node?_eq : ∀ m, e.node? m = if m = l then some .directory else d.node? m

namespace AddsDirectory

variable {d e : Disk} {l m : Location}

theorem isDirectory (h : d.AddsDirectory e l) : e.node? l = some .directory := by
  rw [h.node?_eq, if_pos rfl]

theorem node?_of_not_prefix (h : d.AddsDirectory e l) (hm : ¬ l <+: m) : e.node? m = d.node? m := by
  have hne : m ≠ l := fun heq => hm (heq ▸ List.prefix_refl _)
  rw [h.node?_eq, if_neg hne]

theorem keepsDirectories (h : d.AddsDirectory e l) : d.KeepsDirectories e := by
  intro m hm
  rw [h.node?_eq]
  split_ifs
  · rfl
  · exact hm

theorem node?_below (h : d.AddsDirectory e l) (name : FileName) (rest : Location) :
    e.node? (l ++ name :: rest) = none := by
  rw [h.node?_eq, if_neg (by simp), node?_of_prefix_of_none h.fresh (List.prefix_append _ _)]

end AddsDirectory

end Disk

namespace Store

open Disk

variable {d d' e : Disk} {p dest : DiskPath} {dir l names : Location} {name staged kept : FileName}
    {t : Tree}

/-! ## New directories -/

theorem isFileName_freshName {stem : String} (hlong : 2 < stem.toList.length)
    (hsep : '/' ∉ stem.toList) (d : Disk) : IsFileName (freshName stem d).toList := by
  obtain ⟨n, hn⟩ : ∃ n, (freshName stem d).toList = stem.toList ++ List.replicate n '0' := by
    unfold freshName
    simp only [String.toList_append, Text.toList_pushn]
    exact ⟨_, rfl⟩
  have hlength : 2 < (freshName stem d).toList.length := by
    rw [hn, List.length_append]
    omega
  refine ⟨?_, ?_, ?_, ?_⟩
  · exact fun h => by simp [h] at hlength
  · exact fun h => by simp [h] at hlength
  · exact fun h => by simp [h] at hlength
  · rw [hn, List.mem_append, not_or]
    refine ⟨hsep, fun h => ?_⟩
    have := List.eq_of_mem_replicate h
    revert this
    decide

/-- A computation with a new directory succeeds if it does so once the directory was made, which is
then removed if it can be. -/
theorem exists_of_withNewDirectory {α : Type} {stem : String} (hlong : 2 < stem.toList.length)
    (hsep : '/' ∉ stem.toList) {body : DiskPath → Store α} {a : α}
    (h : withNewDirectory p stem body d = (.ok a, d')) : ∃ (name : FileName) (d₁ d₂ : Disk),
      d.makeDirectory (p.belowNames [name]) = .ok d₁ ∧
      body (p.belowNames [name]) d₁ = (.ok a, d₂) ∧
      attempt (·.dropAll (p.belowNames [name])) d₂ = (.ok (), d') := by
  refine ⟨⟨freshName stem d, isFileName_freshName hlong hsep d⟩, ?_⟩
  unfold withNewDirectory at h
  dsimp only at h
  split at h
  · cases h
  · rename_i d₁ hmake
    obtain ⟨hresult, rfl⟩ := Prod.mk.inj h
    refine ⟨d₁, _, hmake, Prod.ext hresult rfl, Prod.ext ?_ rfl⟩
    unfold attempt
    split <;> rfl

theorem exists_reaches_of_makeDirectory (h : d.makeDirectory (p.belowNames [name]) = .ok e) :
    ∃ dir, d.Reaches p dir := by
  obtain ⟨l, hl, -⟩ := Except.bind_eq_ok_iff.1 h
  obtain ⟨-, dir, hdir, -⟩ := (locate_belowNames_eq_ok_iff (by simp)).1 hl
  exact ⟨dir, hdir⟩

theorem addsDirectory_of_makeDirectory (hp : d.Reaches p dir)
    (h : d.makeDirectory (p.belowNames [name]) = .ok e) :
    d.locate (p.belowNames [name]) = .ok (dir ++ [name]) ∧ d.AddsDirectory e (dir ++ [name]) := by
  obtain ⟨l, hl, h⟩ := Except.bind_eq_ok_iff.1 h
  obtain rfl := hp.eq_of_locate (by simp) hl
  split_ifs at h with hsome
  exact ⟨hl, by simpa using hsome, (node?_of_putAt h).1⟩

theorem node?_of_dropAll (hp : d.Reaches p dir) (hl : e.locate (p.belowNames [name]) = .ok l)
    (h : attempt (·.dropAll (p.belowNames [name])) d = (.ok (), d')) (m : Location) :
    d'.node? m = if dir ++ [name] <+: m then none else d.node? m := by
  cases hnode : d.node? (dir ++ [name]) with
  | none =>
    have hstay : d = d' := by
      refine (of_attempt h).resolve_left fun hdrop => ?_
      obtain ⟨k, hk, hdrop⟩ := Except.bind_eq_ok_iff.1 hdrop
      rw [hp.eq_of_locate (by simp) hk, if_pos hnode] at hdrop
      cases hdrop
    subst hstay
    split_ifs with hm
    · exact node?_of_prefix_of_none hnode hm
    · rfl
  | some node =>
    have hlocate := hp.locate_belowNames (by simp) hl hnode
    have hdrop : d.dropAll (p.belowNames [name]) = .ok
        (d.dropRegion (dir ++ [name]) (by simp)) := by
      refine Except.bind_eq_ok_iff.2 ⟨_, hlocate, ?_⟩
      rw [if_neg (by simp [hnode]), dropAt, dif_pos (by simp)]
    rw [attempt, hdrop] at h
    obtain ⟨-, rfl⟩ := Prod.mk.inj h
    exact node?_dropRegion m

/-! ## Building a tree up -/

theorem replaces_of_placeFile {c : TreePath × Content} (hp : d.Reaches p dir) (hc : c.1.IsNormal)
    (h : placeFile (p.belowNames [staged]) c d = (.ok (), d')) :
    d.Replaces d' (dir ++ [staged] ++ c.1.location) (some c.2) := by
  obtain ⟨_, e, hmake, h⟩ := bind_eq_ok_iff.1 h
  have hplace : (p.belowNames [staged]).below c.1 = p.belowNames (staged :: c.1.location) := by
    rw [DiskPath.below_eq _ hc]
    rfl
  rw [hplace] at hmake h
  rw [List.append_assoc, List.singleton_append]
  exact (replaces_of_put hp (by simp) hmake (change_eq_ok_iff.1 h)).1

theorem of_placeFiles (hp : d.Reaches p dir) (hdir : d.node? (dir ++ [staged]) = some .directory)
    (hempty : ∀ name rest, d.node? (dir ++ [staged] ++ name :: rest) = none)
    (hkeys : ∀ key ∈ t.keys, key.IsNormal)
    (h : each (placeFile (p.belowNames [staged])) t.toList d = (.ok (), d')) :
    d'.HoldsTree (dir ++ [staged]) t ∧ d.ChangesWithin d' {dir ++ [staged]} ∧
      d.KeepsDirectories d' := by
  have hkeys : ∀ c ∈ t.toList, c.1.IsNormal := fun c hc => hkeys c.1 (List.mem_map_of_mem hc)
  have hset : d.SetsFiles d'
      (t.toList.map fun c => (dir ++ [staged] ++ c.1.location, some c.2)) := by
    refine setsFiles_of_each (fun c hc e f hkeeps hstep => ?_) (fun c hc c' hc' heq => ?_) h
    · exact (replaces_of_placeFile (hp.mono hkeeps) (hkeys c hc) hstep).setsFile
    · have hkey : c.1 = c'.1 := by
        rw [← (hkeys c hc).ofLocation_location, List.append_cancel_left heq,
          (hkeys c' hc').ofLocation_location]
      have hvalue := SortedMap.get?_eq_some_iff.2 hc
      rw [hkey, SortedMap.get?_eq_some_iff.2 hc'] at hvalue
      exact hvalue.symm
  have hwithin : d.Reaches p dir → d.KeepsDirectories d' ∧ d.ChangesWithin d'
      {dir ++ [staged]} := by
    refine each_induction (motive := fun d e => d.Reaches p dir →
      d.KeepsDirectories e ∧ d.ChangesWithin e {dir ++ [staged]}) (fun d _ => ⟨.refl d, .refl d _⟩)
      (fun d e f h h' hp => ?trans) (fun c hc d e hstep hp => ?step) h
    case trans =>
      obtain ⟨hkeeps, hwithin⟩ := h hp
      obtain ⟨hkeeps', hwithin'⟩ := h' (hp.mono hkeeps)
      exact ⟨hkeeps.trans hkeeps', hwithin.trans hwithin'⟩
    case step =>
      have hplaced := replaces_of_placeFile hp (hkeys c hc) hstep
      exact ⟨hplaced.directories, hplaced.within.mono fun _ hl =>
        ⟨_, rfl, hl ▸ List.prefix_append _ _⟩⟩
  refine ⟨⟨hset.directories _ hdir, fun names => ?_⟩, (hwithin hp).2, hset.directories⟩
  cases hget : t.get? (ofLocation names) with
  | some c =>
    have hmem := SortedMap.get?_eq_some_iff.1 hget
    have hfile := hset.of_mem _ (List.mem_map_of_mem hmem)
    rwa [TreePath.location_ofLocation] at hfile
  | none =>
    rw [hset.of_notMem]
    · cases names with
      | nil => rw [List.append_nil, file?_of_directory hdir]
      | cons name rest => exact file?_of_none (hempty name rest)
    · rintro c hc heq
      obtain ⟨entry, hentry, rfl⟩ := List.mem_map.1 hc
      rw [List.append_cancel_left heq, (hkeys entry hentry).ofLocation_location,
        SortedMap.get?_eq_some_iff.2 hentry] at hget
      cases hget

theorem of_buildUp {d₁ : Disk} (hp : d.Reaches p dir) (hnew : d.AddsDirectory d₁ (dir ++ [staged]))
    (hkeys : ∀ key ∈ t.keys, key.IsNormal)
    (h : each (placeFile (p.belowNames [staged])) t.toList d₁ = (.ok (), d')) :
    d'.HoldsTree (dir ++ [staged]) t ∧ (∀ m, ¬ dir ++ [staged] <+: m → d'.node? m = d.node? m) ∧
      d.KeepsDirectories d' := by
  obtain ⟨htree, hwithin, hkeeps⟩ :=
    of_placeFiles (hp.mono hnew.keepsDirectories) hnew.isDirectory hnew.node?_below hkeys h
  refine ⟨htree, fun m hm => ?_, hnew.keepsDirectories.trans hkeeps⟩
  rw [hwithin.node?_eq_of_ne_none (by simp [hnew.isDirectory]) hm, hnew.node?_of_not_prefix hm]

/-! ## Taking the place of another directory -/

theorem not_prefix_sibling {a b : FileName} (h : a ≠ b) (names : Location) :
    ¬ dir ++ [a] <+: dir ++ [b] ++ names := by
  rw [List.append_assoc, List.prefix_append_right_inj, List.singleton_append, List.cons_prefix_cons]
  exact fun hab => h hab.1

def previousName : FileName := ⟨"previous", by decide⟩

theorem exists_of_swap {staging backup : DiskPath} (h : swap staging backup dest d = (.ok (), d')) :
    ∃ moved, (if d.holds dest then d.move dest (backup.join ⟨"previous"⟩) else .ok d) = .ok moved ∧
      moved.move staging dest = .ok d' := by
  unfold swap at h
  dsimp only at h
  split at h
  · cases h
  · rename_i moved haside
    refine ⟨moved, haside, ?_⟩
    split at h
    · rename_i d₁ hmove
      obtain ⟨-, rfl⟩ := Prod.mk.inj h
      exact hmove
    · cases h

section

variable {moved : Disk} (hdest : dest.EndsIn name) (hq : d.Reaches dest.directory dir)
include hdest hq

theorem moveTo_of_setAside
    (haside : d.move dest ((dest.directory.belowNames [kept]).join ⟨"previous"⟩) = .ok moved) :
    d.locate dest = .ok (dir ++ [name]) ∧ d.moveTo (dir ++ [name])
      (dir ++ [kept] ++ [previousName]) = .ok moved := by
  obtain ⟨src, dst, hsrc, hdst, hmove⟩ := (move_eq_ok_iff.1 haside).2
  obtain ⟨rfl, -⟩ := hq.of_locate hdest hsrc
  have hplace : (dest.directory.belowNames [kept]).join ⟨"previous"⟩ =
      dest.directory.belowNames [kept, previousName] := rfl
  rw [hplace] at hdst
  obtain rfl := hq.eq_of_locate (by simp) hdst
  exact ⟨hsrc, by simpa using hmove⟩

omit hdest hq in
theorem node?_of_setAside
    (hmove : d.moveTo (dir ++ [name]) (dir ++ [kept] ++ [previousName]) = .ok moved) :
    moved.node? (dir ++ [name]) = none ∧ kept ≠ name ∧
      ∀ m, ¬ dir ++ [name] <+: m → ¬ dir ++ [kept] <+: m → moved.node? m = d.node? m := by
  have hlonger : ¬ dir ++ [kept] ++ [previousName] <+: dir ++ [name] := by
    intro hle
    have := hle.length_le
    simp at this
  have hne : dir ++ [name] ≠ dir ++ [kept] ++ [previousName] :=
    fun heq => hlonger (heq ▸ List.prefix_refl _)
  obtain ⟨-, hother⟩ := node?_of_moveTo hmove hne
  refine ⟨by rw [hother _ hlonger, if_pos (List.prefix_refl _)], ?_, fun m hm hm' => ?_⟩
  · rintro rfl
    exact (not_prefix_of_moveTo hmove hne).2 (List.prefix_append _ _)
  · rw [hother m fun h => hm' ((List.prefix_append _ _).trans h), if_neg hm]

/-- Once what was at the destination has been set aside, nothing is there, and only the backup has
changed. -/
theorem of_setAside (hkept : d.node? (dir ++ [kept]) = some .directory)
    (haside : (if d.holds dest then
      d.move dest ((dest.directory.belowNames [kept]).join ⟨"previous"⟩) else .ok d) = .ok moved)
    (hl : moved.locate dest = .ok l) :
    moved.node? (dir ++ [name]) = none ∧ kept ≠ name ∧
      ∀ m, ¬ dir ++ [name] <+: m → ¬ dir ++ [kept] <+: m → moved.node? m = d.node? m := by
  split_ifs at haside with hholds
  · exact node?_of_setAside (moveTo_of_setAside hdest hq haside).2
  · obtain rfl := Except.ok.inj haside
    have hnone : d.node? (dir ++ [name]) = none := by
      by_contra hnode
      obtain ⟨node, hnode⟩ := Option.ne_none_iff_exists'.1 hnode
      rw [(hq.of_locate hdest hl).1] at hl
      exact hholds (holds_iff.2 ⟨_, node, hl, hnode⟩)
    refine ⟨hnone, ?_, fun _ _ _ => rfl⟩
    rintro rfl
    rw [hkept] at hnone
    cases hnone

/-- The new directory is found at the destination and no longer at its own place. Apart from these
and the backup nothing changes. -/
theorem of_swap (hkept : d.node? (dir ++ [kept]) = some .directory) (hne : staged ≠ kept)
    (h : swap (dest.directory.belowNames [staged]) (dest.directory.belowNames [kept]) dest d =
      (.ok (), d')) :
    staged ≠ name ∧ kept ≠ name ∧
    (∀ names, d'.node? (dir ++ [name] ++ names) = d.node? (dir ++ [staged] ++ names)) ∧
    (∀ m, ¬ dir ++ [name] <+: m → ¬ dir ++ [kept] <+: m →
      d'.node? m = if dir ++ [staged] <+: m then none else d.node? m) ∧
    ∃ moved : Disk, moved.locate dest = .ok (dir ++ [name]) ∧ moved.node?
      (dir ++ [name]) = none := by
  obtain ⟨moved, haside, hmove⟩ := exists_of_swap h
  obtain ⟨src, dst, hsrc, hdst, hmove⟩ := (move_eq_ok_iff.1 hmove).2
  obtain ⟨hnone, hkeptName, hmoved⟩ := of_setAside hdest hq hkept haside hdst
  obtain rfl := hq.eq_of_locate (by simp) hsrc
  obtain ⟨rfl, -⟩ := hq.of_locate hdest hdst
  have hstaged : staged ≠ name := by
    rintro rfl
    exact node?_ne_none_of_moveTo hmove hnone
  obtain ⟨hat, hother⟩ := node?_of_moveTo hmove (by simpa using hstaged)
  refine ⟨hstaged, hkeptName, fun names => ?_, fun m hm hm' => ?_, moved, hdst, hnone⟩
  · rw [hat, hmoved _ (not_prefix_sibling hstaged.symm names) (not_prefix_sibling hne.symm names)]
  · rw [hother m hm, hmoved m hm hm']

omit hq in
/-- A destination where nothing was is not on the way to its own directory. -/
theorem leadsPast_of_locate (hl : moved.locate dest = .ok (dir ++ [name]))
    (hnone : moved.node? (dir ++ [name]) = none) : dest.directory.LeadsPast (dir ++ [name]) := by
  obtain ⟨-, -, ⟨dir', hreach, -⟩, -⟩ := (locate_eq_ok_iff_of_endsIn hdest).1 hl
  exact hreach.leadsPast hnone

/-- With a backup that is made and removed on the way, the new directory is found at the destination
and no longer at its own place, and nothing else changes. -/
theorem of_replaceBy (hstaged : d.node? (dir ++ [staged]) = some .directory)
    (hqStaged : dest.directory.LeadsPast (dir ++ [staged]))
    (h : replaceBy (dest.directory.belowNames [staged]) dest d = (.ok (), d')) :
    staged ≠ name ∧
      (∀ names, d'.node? (dir ++ [name] ++ names) = d.node? (dir ++ [staged] ++ names)) ∧
      (∀ m, ¬ dir ++ [name] <+: m → d'.node? m = if dir ++ [staged] <+: m then none
        else d.node? m) ∧
      ∃ moved : Disk, moved.locate dest = .ok (dir ++ [name]) ∧ moved.node?
        (dir ++ [name]) = none := by
  obtain ⟨kept, d₁, d₂, hmake, hswap, hunkeep⟩ :=
    exists_of_withNewDirectory (by decide) (by decide) h
  obtain ⟨hl, hnew⟩ := addsDirectory_of_makeDirectory hq hmake
  have hne : staged ≠ kept := by
    rintro rfl
    rw [hnew.fresh] at hstaged
    cases hstaged
  have hq₁ := hq.mono hnew.keepsDirectories
  obtain ⟨hstagedName, hkeptName, hat, hother, moved, hmoved, hnone⟩ :=
    of_swap hdest hq₁ hnew.isDirectory hne hswap
  have hpasts : ∀ l ∈ ({dir ++ [name], dir ++ [staged], dir ++ [kept]} : Set Location),
      dest.directory.LeadsPast l := by
    rintro l (rfl | rfl | rfl)
    · exact leadsPast_of_locate hdest hmoved hnone
    · exact hqStaged
    · exact hq.leadsPast hnew.fresh
  have hq₂ : d₂.Reaches dest.directory dir := by
    refine hq₁.of_leadsPast hpasts fun m hm hdir => ?_
    rw [hother m (hm _ (.inl rfl)) (hm _ (.inr (.inr rfl))), if_neg (hm _ (.inr (.inl rfl))), hdir]
  have hd' := node?_of_dropAll hq₂ hl hunkeep
  refine ⟨hstagedName, fun names => ?_, fun m hm => ?_, moved, hmoved, hnone⟩
  · rw [hd', if_neg (not_prefix_sibling hkeptName names), hat,
      hnew.node?_of_not_prefix (not_prefix_sibling hne.symm names)]
  · rw [hd']
    split_ifs with hmKept hmStaged hmStaged
    · rfl
    · exact (node?_of_prefix_of_none hnew.fresh hmKept).symm
    · rw [hother m hm hmKept, if_pos hmStaged]
    · rw [hother m hm hmKept, if_neg hmStaged, hnew.node?_of_not_prefix hmKept]

/-! ## Writing a tree -/

theorem of_replaceTree (hkeys : ∀ key ∈ t.keys, key.IsNormal)
    (h : withNewDirectory dest.directory stagingStem (fun staging => do
      each (placeFile staging) t.toList
      replaceBy staging dest) d = (.ok (), d')) :
    (∀ m, ¬ dir ++ [name] <+: m → d'.node? m = d.node? m) ∧ d'.HoldsTree (dir ++ [name]) t ∧
      ∃ moved : Disk, moved.locate dest = .ok (dir ++ [name]) ∧
        moved.node? (dir ++ [name]) = none := by
  obtain ⟨staged, d₁, d₃, hmake, hbody, hunstage⟩ :=
    exists_of_withNewDirectory (by decide) (by decide) h
  obtain ⟨_, d₂, hplace, hbody⟩ := bind_eq_ok_iff.1 hbody
  obtain ⟨hl, hnew⟩ := addsDirectory_of_makeDirectory hq hmake
  have hqStaged := hq.leadsPast hnew.fresh
  obtain ⟨htree, hd₂, hkeeps⟩ := of_buildUp hq hnew hkeys hplace
  obtain ⟨hstagedName, hat, hd₃, moved, hmoved, hnone⟩ :=
    of_replaceBy hdest (hq.mono hkeeps) htree.isDirectory hqStaged hbody
  have hpasts : ∀ l ∈ ({dir ++ [name], dir ++ [staged]} : Set Location),
      dest.directory.LeadsPast l := by
    rintro l (rfl | rfl)
    · exact leadsPast_of_locate hdest hmoved hnone
    · exact hqStaged
  have hq₃ : d₃.Reaches dest.directory dir := by
    refine (hq.mono hkeeps).of_leadsPast hpasts fun m hm hdir => ?_
    rw [hd₃ m (hm _ (.inl rfl)), if_neg (hm _ (.inr rfl)), hdir]
  have hd' := node?_of_dropAll hq₃ hl hunstage
  refine ⟨fun m hm => ?_, htree.of_node? fun names => ?_, moved, hmoved, hnone⟩
  · rw [hd']
    split_ifs with hmStaged
    · exact (node?_of_prefix_of_none hnew.fresh hmStaged).symm
    · rw [hd₃ m hm, if_neg hmStaged, hd₂ m hmStaged]
  · rw [hd', if_neg (not_prefix_sibling hstagedName names), hat]

end

/-- A tree that is written is what lies at the destination. Nothing else changes once the directory
of the destination is made. -/
theorem exists_of_writeTree (hkeys : ∀ key ∈ t.keys, key.IsNormal)
    (h : writeTree t dest d = (.ok (), d')) :
    ∃ l, d'.locate dest = .ok l ∧ d'.HoldsTree l t ∧
      ∀ m, ¬ l <+: m → d'.node? m = (d.makeDirectories dest.directory).1.node? m := by
  obtain ⟨_, d₁, hmake, hreplace⟩ := bind_eq_ok_iff.1 h
  obtain ⟨staged, d₂, d₃, hstage, hbody, -⟩ :=
    exists_of_withNewDirectory (by decide) (by decide) hreplace
  obtain ⟨name, hdest⟩ : ∃ name, dest.EndsIn name := by
    obtain ⟨_, d₂, -, hbackup⟩ := bind_eq_ok_iff.1 hbody
    obtain ⟨_, _, _, -, hswap, -⟩ := exists_of_withNewDirectory (by decide) (by decide) hbackup
    obtain ⟨moved, -, hmove⟩ := exists_of_swap hswap
    exact DiskPath.exists_endsIn (move_eq_ok_iff.1 hmove).1.2
  obtain ⟨dir, hq⟩ := exists_reaches_of_makeDirectory hstage
  obtain ⟨hsame, htree, moved, hmoved, hnone⟩ := of_replaceTree hdest hq hkeys hreplace
  have hpast := leadsPast_of_locate hdest hmoved hnone
  have hreach : d'.Reaches dest.directory dir := by
    have hpasts : ∀ l ∈ ({dir ++ [name]} : Set Location), dest.directory.LeadsPast l :=
      fun l hl => hl ▸ hpast
    exact hq.of_leadsPast hpasts fun m hm hdir => by rw [hsame m (hm _ rfl), hdir]
  refine ⟨dir ++ [name], ?_, htree, fun m hm => ?_⟩
  · exact hreach.locate_of_endsIn hdest hmoved fun content => by simp [htree.isDirectory]
  · rw [hsame m hm, makeDirectories_eq_ok_iff.1 hmake]

/-- A tree that is written below a directory that a path reaches is what lies there afterwards, and
nothing else changes. The path still reaches the directory. -/
theorem of_writeTree (hp : d.Reaches p dir) (hnames : names ≠ [])
    (hkeys : ∀ key ∈ t.keys, key.IsNormal) (h : writeTree t (p.belowNames names) d = (.ok (), d')) :
    d.ChangesWithin d' {dir ++ names} ∧ d'.HoldsTree (dir ++ names) t ∧ d'.Reaches p dir ∧
      d'.locate (p.belowNames names) = .ok (dir ++ names) := by
  obtain ⟨l, hl, htree, hother⟩ := exists_of_writeTree hkeys h
  obtain rfl := hp.eq_of_locate hnames hl
  obtain ⟨-, dir', hp', -⟩ := (locate_belowNames_eq_ok_iff hnames).1 hl
  obtain rfl := hp.unique hp'
  refine ⟨?_, htree, hp', hl⟩
  obtain ⟨init, name, rfl⟩ := (List.eq_nil_or_concat' names).resolve_left hnames
  exact (changesWithin_makeDirectories hp init name).trans fun m hm => .inl (hother m (hm _ rfl))

end Store

end Patchwork
