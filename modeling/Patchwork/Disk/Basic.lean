import Patchwork.Disk.Location
import Patchwork.Tree.Basic

/-!
# Disks

A disk has a file or a directory at some locations. Its root is a directory, and so is whatever an
entry lies in; both facts are part of the type. The operations below change one entry or one region,
and each is described by what is at every location afterwards.
-/
namespace Patchwork

inductive Node
  | file (content : Content)
  | directory
  deriving DecidableEq

structure Disk where
  nodes : SortedMap Location Node
  root : nodes.get? [] = some .directory
  parents : ∀ dir name, (nodes.get? (dir ++ [name])).isSome → nodes.get? dir = some .directory

namespace Disk

def node? (d : Disk) (l : Location) : Option Node := d.nodes.get? l

@[simp] theorem node?_root (d : Disk) : d.node? [] = some .directory := d.root

theorem ext_node? {d e : Disk} (h : ∀ l, d.node? l = e.node? l) : d = e := by
  cases d; cases e
  simp only [Disk.mk.injEq]
  exact SortedMap.ext_get? h

instance : DecidableEq Disk := fun d e =>
  if h : d.nodes = e.nodes then isTrue (by cases d; cases e; simp_all)
  else isFalse fun e => h (e ▸ rfl)

theorem node?_parent {d : Disk} {dir : Location} {name : FileName} {node : Node}
    (h : d.node? (dir ++ [name]) = some node) : d.node? dir = some .directory :=
  d.parents dir name (Option.isSome_iff_exists.2 ⟨node, h⟩)

def empty : Disk where
  nodes := .ofList [([], .directory)]
  root := by simp [SortedMap.get?_ofList]
  parents dir name := by simp [SortedMap.get?_ofList]

/-- Puts a node into a directory, unless it would replace a directory by a file. -/
def put (d : Disk) (dir : Location) (name : FileName) (node : Node)
    (isDirectory : d.node? dir = some .directory)
    (keepsDirectory : node = .directory ∨ d.node? (dir ++ [name]) ≠ some .directory) : Disk where
  nodes := d.nodes.insert (dir ++ [name]) node
  root := by simpa using d.root
  parents dir' name' h := by
    rw [SortedMap.get?_insert] at h ⊢
    by_cases hd : dir' = dir ++ [name]
    · subst hd
      have hne : dir ++ [name] ++ [name'] ≠ dir ++ [name] := by simp
      rw [if_neg hne] at h
      have := d.parents _ _ h
      rcases keepsDirectory with rfl | hk
      · simp
      · exact absurd this hk
    · rw [if_neg hd]
      split at h
      · rename_i he
        obtain ⟨rfl, -⟩ := List.append_inj' he rfl
        exact isDirectory
      · exact d.parents _ _ h

@[simp] theorem node?_put {d : Disk} {dir : Location} {name : FileName} {node : Node}
    {h : d.node? dir = some .directory} {h'} (l : Location) :
    (d.put dir name node h h').node? l = if l = dir ++ [name] then some node else d.node? l := by
  simp [node?, put]

def dropRegion (d : Disk) (dir : Location) (isEntry : dir ≠ []) : Disk where
  nodes := d.nodes.filter fun l _ => !l.isWithin dir
  root := by
    have : Location.isWithin [] dir = false := by
      rw [← Bool.not_eq_true]
      simpa using isEntry
    simp [Option.filter, d.root, this]
  parents dir' name h := by
    rw [SortedMap.get?_filter, Option.isSome_iff_exists] at h
    obtain ⟨node, h⟩ := h
    obtain ⟨hn, hout⟩ := Option.filter_eq_some_iff.1 h
    have hout : ¬ dir <+: dir' ++ [name] := fun hp => by simp [Location.isWithin_iff.2 hp] at hout
    have hout' : dir'.isWithin dir = false := by
      rw [← Bool.not_eq_true, Location.isWithin_iff]
      exact fun hp => hout (hp.trans (List.prefix_append _ _))
    simp [SortedMap.get?_filter, d.parents dir' name (by simp [hn]), Option.filter, hout']

theorem node?_dropRegion {d : Disk} {dir : Location} {h : dir ≠ []} (l : Location) :
    (d.dropRegion dir h).node? l = if dir <+: l then none else d.node? l := by
  rw [node?, dropRegion, SortedMap.get?_filter]
  by_cases hl : dir <+: l
  · cases hn : d.nodes.get? l <;> simp [Option.filter, hl, Location.isWithin_iff.2 hl]
  · have : l.isWithin dir = false := by simpa [← Bool.not_eq_true] using hl
    cases hn : d.nodes.get? l <;> simp [Option.filter, hl, this, node?, hn]

theorem node?_of_node?_append {d : Disk} {l : Location} {name : FileName} {rest : Location}
    {node : Node} (h : d.node? (l ++ name :: rest) = some node) : d.node? l = some .directory := by
  rcases List.eq_nil_or_concat rest with rfl | ⟨init, last, rfl⟩
  · exact node?_parent h
  · have h' : d.node? (l ++ name :: init) = some .directory :=
      @node?_parent d _ last node (by simpa using h)
    exact node?_of_node?_append h'
termination_by rest.length
decreasing_by simp_all

/-- The nodes after the region at `src` has become the region at `dst`. -/
def movedNodes (d : Disk) (src dst : Location) : SortedMap Location Node :=
  (d.nodes.filter fun l _ => !l.isWithin src && l ≠ dst).union
    (d.nodes.rekey fun l => Location.renamed? l src dst)

theorem get?_movedNodes {d : Disk} {src dst : Location}
    (free : ∀ name, d.node? (dst ++ [name]) = none) (l : Location) :
    (d.movedNodes src dst).get? l =
      match l.relativeTo? dst with
      | some rest => d.node? (src ++ rest)
      | none => if src <+: l then none else d.node? l := by
  have inj : ∀ k₁ k₂ j : Location, Location.renamed? k₁ src dst = some j →
      Location.renamed? k₂ src dst = some j → k₁ = k₂ := by
    intro k₁ k₂ j h₁ h₂
    obtain ⟨r₁, rfl, rfl⟩ := Location.renamed?_eq_some_iff.1 h₁
    obtain ⟨r₂, rfl, h⟩ := Location.renamed?_eq_some_iff.1 h₂
    rw [List.append_cancel_left h]
  have moved : (d.nodes.rekey fun l => Location.renamed? l src dst).get? l =
      (l.relativeTo? dst).bind fun rest => d.node? (src ++ rest) := by
    refine Option.ext fun node => ?_
    rw [SortedMap.get?_rekey inj, Option.bind_eq_some_iff]
    constructor
    · rintro ⟨k, hk, hn⟩
      obtain ⟨rest, rfl, rfl⟩ := Location.renamed?_eq_some_iff.1 hk
      exact ⟨rest, Location.relativeTo?_eq_some_iff.2 rfl, hn⟩
    · rintro ⟨rest, hr, hn⟩
      exact ⟨src ++ rest, Location.renamed?_eq_some_iff.2
        ⟨rest, rfl, Location.relativeTo?_eq_some_iff.1 hr⟩, hn⟩
  rw [movedNodes, SortedMap.get?_union, moved, SortedMap.get?_filter]
  cases hr : l.relativeTo? dst with
  | none =>
    have hne : l ≠ dst := by
      rintro rfl
      rw [Location.relativeTo?_eq_some_iff.2 (List.append_nil l).symm] at hr
      cases hr
    by_cases hp : src <+: l
    · cases hn : d.nodes.get? l <;> simp [Option.filter, hp, Location.isWithin_iff.2 hp]
    · have : l.isWithin src = false := by simpa [← Bool.not_eq_true] using hp
      cases hn : d.nodes.get? l <;> simp [Option.filter, hp, this, hne, node?, hn]
  | some rest =>
    have hl := Location.relativeTo?_eq_some_iff.1 hr
    subst hl
    cases hn : d.node? (src ++ rest) with
    | some node => simp [hn]
    | none =>
      simp only [Option.bind_some, hn, Option.none_or]
      cases rest with
      | nil => cases hd : d.nodes.get? (dst ++ []) <;> simp [Option.filter]
      | cons name rest =>
        cases hd : d.nodes.get? (dst ++ name :: rest) with
        | none => rfl
        | some node =>
          cases rest with
          | nil => exact absurd (free name) (by simp [node?, hd])
          | cons name' rest =>
            have hn' : d.node? (dst ++ [name] ++ name' :: rest) = some node := by
              simpa [node?] using hd
            have := node?_of_node?_append hn'
            simp [free name] at this

/-- Gives the region at `src` another place, which may hold a file or an empty directory. -/
def moveRegion (d : Disk) (src dir : Location) (name : FileName) (isEntry : src ≠ [])
    (outside : ¬ src <+: dir) (isDirectory : d.node? dir = some .directory)
    (free : ∀ name', d.node? (dir ++ [name] ++ [name']) = none) : Disk where
  nodes := d.movedNodes src (dir ++ [name])
  root := by
    have : Location.relativeTo? [] (dir ++ [name]) = none := by
      simp [Location.relativeTo?, Location.isWithin]
    simp [get?_movedNodes free, this, isEntry]
  parents dir' name' h := by
    rw [get?_movedNodes free] at h ⊢
    cases hd : (dir' ++ [name']).relativeTo? (dir ++ [name]) with
    | some rest =>
      rw [hd] at h
      have he := Location.relativeTo?_eq_some_iff.1 hd
      rcases List.eq_nil_or_concat rest with rfl | ⟨rest, last, rfl⟩
      · obtain ⟨rfl, -⟩ := List.append_inj' (he.trans (List.append_nil _)) rfl
        have : dir'.relativeTo? (dir' ++ [name]) = none := by
          rw [Option.eq_none_iff_forall_not_mem]
          intro rest hr
          have := congrArg List.length (Location.relativeTo?_eq_some_iff.1 hr)
          simp at this
        simp [this, outside, isDirectory]
      · rw [List.concat_eq_append] at h he
        rw [← List.append_assoc] at he
        obtain ⟨rfl, -⟩ := List.append_inj' he rfl
        rw [Location.relativeTo?_eq_some_iff.2 rfl]
        obtain ⟨node, hn⟩ := Option.isSome_iff_exists.1 h
        exact @node?_parent d _ last node (by simpa using hn)
    | none =>
      rw [hd] at h
      have hp : ¬ src <+: dir' ++ [name'] := fun hp => by simp [hp] at h
      have hp' : ¬ src <+: dir' := fun h' => hp (h'.trans (List.prefix_append _ _))
      have : dir'.relativeTo? (dir ++ [name]) = none := by
        rw [Option.eq_none_iff_forall_not_mem]
        intro rest hr
        have he := Location.relativeTo?_eq_some_iff.1 hr
        subst he
        rw [List.append_assoc, Location.relativeTo?_eq_some_iff.2 rfl] at hd
        cases hd
      simp only [hp, if_false] at h
      simp only [this, hp', if_false]
      obtain ⟨node, hn⟩ := Option.isSome_iff_exists.1 h
      exact node?_parent hn

theorem node?_moveRegion {d : Disk} {src dir : Location} {name : FileName} {h₁ h₂ h₃}
    {free : ∀ name', d.node? (dir ++ [name] ++ [name']) = none} (l : Location) :
    (d.moveRegion src dir name h₁ h₂ h₃ free).node? l =
      match l.relativeTo? (dir ++ [name]) with
      | some rest => d.node? (src ++ rest)
      | none => if src <+: l then none else d.node? l :=
  get?_movedNodes free l

end Disk

end Patchwork
