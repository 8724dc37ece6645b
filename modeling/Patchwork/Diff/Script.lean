import Patchwork.Hunk.Basic

/-!
# Edit scripts

A script lists runs of kept, deleted and inserted lines. Read without its insertions it gives the
old lines, without its deletions the new ones.
-/
namespace Patchwork.Diff

/-- Lines that are all kept, all deleted or all inserted. -/
structure Run where
  kind : LineKind
  lines : List String
  deriving DecidableEq, Repr

abbrev Script := List Run

namespace Script

def oldSide (s : Script) : List String := (s.filter (·.kind.isOld)).flatMap (·.lines)

def newSide (s : Script) : List String := (s.filter (·.kind.isNew)).flatMap (·.lines)

@[simp] theorem oldSide_append (s t : Script) : oldSide (s ++ t) = oldSide s ++ oldSide t := by
  simp [oldSide]

@[simp] theorem newSide_append (s t : Script) : newSide (s ++ t) = newSide s ++ newSide t := by
  simp [newSide]

def run (kind : LineKind) (lines : List String) : Script :=
  if lines = [] then [] else [⟨kind, lines⟩]

/-- Whether a script leads from the old lines to the new ones. -/
def Leads (s : Script) (old new : List String) : Prop := s.oldSide = old ∧ s.newSide = new

theorem Leads.append {s t : Script} {old new old' new' : List String} (h : s.Leads old new)
    (h' : t.Leads old' new') : Script.Leads (s ++ t) (old ++ old') (new ++ new') := by
  simp_all [Leads]

theorem run_leads (kind : LineKind) (lines : List String) :
    (run kind lines).Leads (if kind.isOld then lines else [])
      (if kind.isNew then lines else []) := by
  by_cases h : lines = []
  · subst h; cases kind <;> exact ⟨rfl, rfl⟩
  · cases kind <;> simp [run, h, Leads, oldSide, newSide, LineKind.isOld, LineKind.isNew]

end Script

end Patchwork.Diff
