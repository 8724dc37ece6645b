import Mathlib.Data.List.Infix
import Patchwork.Patch.Parser
import Patchwork.Project.ConfigFile
import Patchwork.Proofs.Json.Reader
import Patchwork.Proofs.Project.Config

/-!
# What a configuration file says

A configuration that was loaded is valid, and normalisation gave the paths in it
(`Config.of_ofText`); its numbers are of the size that a file may give
(`Config.isBounded_of_ofText`). Its text is no patch, as no line of it is a header
(`Patch.parse_eq_error`).
-/
namespace Patchwork

/-! ## Texts that hold no patch -/

namespace Text

theorem prefix_of_head?_cutLines {cs l : List Char} (h : (cutLines cs).head? = some l) :
    l <+: cs := by
  obtain ⟨ls, hls⟩ := List.head?_eq_some_iff.1 h
  rw [← flatten_cutLines cs, hls, List.flatten_cons]
  exact List.prefix_append _ _

theorem infix_of_mem_tail_cutLines {cs l : List Char} (h : l ∈ (cutLines cs).tail) :
    '\n' :: l <:+: cs := by
  induction cs with
  | nil => cases h
  | cons c cs ih =>
    unfold cutLines at h
    split at h
    · rename_i hc
      rw [List.tail_cons] at h
      cases hlines : cutLines cs with
      | nil => rw [hlines] at h; cases h
      | cons first ls =>
        rw [hlines] at h
        rcases List.mem_cons.1 h with rfl | h
        · refine List.IsPrefix.isInfix (hc ▸ List.cons_prefix_cons.2 ⟨rfl, ?_⟩)
          exact prefix_of_head?_cutLines (by rw [hlines]; rfl)
        · exact (ih (by rwa [hlines])).trans (List.suffix_cons _ _).isInfix
    · split at h
      · cases h
      · rename_i first ls hlines
        exact (ih (by rwa [hlines])).trans (List.suffix_cons _ _).isInfix

end Text

namespace Patch

theorem findOldHeader_eq_none {ls : List String} (h : ∀ l ∈ ls, headerValue? oldHeaderMark l = none)
    (number : Nat) :
    findOldHeader number ls = none := by
  induction ls generalizing number with
  | nil => rfl
  | cons l ls ih =>
    obtain ⟨hl, h⟩ := List.forall_mem_cons.1 h
    rw [findOldHeader, hl]
    exact ih h _

/-- No header of a patch is found where no line starts with two hyphens. -/
theorem parse_eq_error {s : String} (h : Json.Tidy s.toList) :
    parse s = .error ⟨0, .noOldHeader⟩ := by
  have hmark : ∀ l ∈ Text.lines s, headerValue? oldHeaderMark l = none := by
    intro l hl
    obtain ⟨cs, hcs, rfl⟩ := List.mem_map.1 hl
    refine if_neg fun hstart => ?_
    rw [String.toList_ofList, List.isPrefixOf_iff_prefix] at hstart
    have hhyphens : ['-', '-'] <+: cs := List.IsPrefix.trans (by decide) hstart
    obtain ⟨hfirst, hlater⟩ := Json.tidy_iff.1 h
    obtain ⟨first, ls, hlines⟩ := List.exists_cons_of_ne_nil (List.ne_nil_of_mem hcs)
    rw [hlines] at hcs
    rcases List.mem_cons.1 hcs with rfl | hcs
    · exact hfirst (hhyphens.trans (Text.prefix_of_head?_cutLines (by rw [hlines]; rfl)))
    · refine hlater
        (List.IsInfix.trans (List.IsPrefix.isInfix ?_)
        (Text.infix_of_mem_tail_cutLines (by rwa [hlines])))
      exact List.cons_prefix_cons.2 ⟨rfl, hhyphens⟩
  rw [parse, ofLines, findOldHeader_eq_none hmark]
  rfl

end Patch

/-! ## Reading a configuration -/

def StageConfig.HasNormalPaths (s : StageConfig) : Prop :=
  (∀ p ∈ s.outputs, p.IsNormal) ∧ ∀ p ∈ s.patches, p.IsNormal

structure Fetch.Policy.IsBounded (p : Fetch.Policy) : Prop where
  attempts : p.attempts ≤ Config.maxAttempts
  backoff : p.backoff ≤ Config.maxNatural

theorem Fetch.Policy.isBounded_default : Policy.default.IsBounded := ⟨by decide, by decide⟩

namespace Config

/-- The numbers of a configuration are no larger than those that a file may give. -/
structure IsBounded (c : Config) : Prop where
  retry : c.source.retry.IsBounded
  context : c.context ≤ maxNatural

open Json (Reader Record)
open Json.Reader (Gives)

variable {cs : List Char}

theorem required_eq_ok_iff {α : Type} {name : String} {x : Option α} {a : α} :
    required name x = .ok a ↔ x = some a := by
  cases x <;> simp [required]

theorem gives_readPath : readPath.Gives cs fun p _ => p.IsNormal :=
  .mono .parsed fun _ _ ⟨s, hs⟩ => ⟨s, Except.mapError_eq_ok_iff.1 hs⟩

theorem gives_retry : retryRecord.read.Gives cs fun p _ => p.IsBounded := by
  refine Record.gives_read (fun d => (∀ n ∈ d.attempts, n ≤ maxAttempts) ∧
    ∀ n ∈ d.backoff, n ≤ maxNatural) ⟨nofun, nofun⟩ ?_ fun d p hd h => ?_
  · simp only [retryRecord, List.forall_mem_cons, List.not_mem_nil, false_imp_iff, implies_true,
      and_true]
    exact ⟨.of_set (fun _ => .natural) fun _ _ hd hn => ⟨by simpa using hn, hd.2⟩,
      .of_set (fun _ => .natural) fun _ _ hd hn => ⟨hd.1, by simpa using hn⟩⟩
  · simp only [retryRecord, Except.bind_eq_ok_iff, required_eq_ok_iff] at h
    obtain ⟨attempts, hattempts, backoff, hbackoff, h⟩ := h
    obtain rfl := Except.ok.inj h
    exact ⟨hd.1 attempts hattempts, hd.2 backoff hbackoff⟩

theorem gives_source : sourceRecord.read.Gives cs fun s _ => s.retry.IsBounded := by
  refine Record.gives_read (fun d => ∀ p ∈ d.retry, p.IsBounded) nofun ?_ fun d s hd h => ?_
  · simp only [sourceRecord, List.forall_mem_cons, List.not_mem_nil, false_imp_iff, implies_true,
      and_true]
    exact ⟨.of_set (fun _ => .text) fun _ _ hd _ => hd,
      .of_set (fun _ => .optional fun _ => .text) fun _ _ hd _ => hd,
      .of_set (fun _ => .text) fun _ _ hd _ => hd,
      .of_set (fun _ => gives_retry) fun _ _ _ hp => by simpa using hp⟩
  · simp only [sourceRecord, Except.bind_eq_ok_iff, required_eq_ok_iff] at h
    obtain ⟨_, -, _, -, h⟩ := h
    obtain rfl := Except.ok.inj h
    cases hretry : d.retry with
    | none => exact Fetch.Policy.isBounded_default
    | some p => exact hd p hretry

theorem gives_set : setRecord.read.Gives cs fun s _ => s.output.IsNormal ∧ s.patches.IsNormal := by
  refine Record.gives_read (fun d => (∀ p ∈ d.output, p.IsNormal) ∧ ∀ p ∈ d.patches, p.IsNormal)
    ⟨nofun, nofun⟩ ?_ fun d s hd h => ?_
  · simp only [setRecord, List.forall_mem_cons, List.not_mem_nil, false_imp_iff, implies_true,
      and_true]
    exact ⟨.of_set (fun _ => .text) fun _ _ hd _ => hd,
      .of_set (fun _ => gives_readPath) fun _ _ hd _ => hd,
      .of_set (fun _ => gives_readPath) fun _ _ hd hp => ⟨by simpa using hp, hd.2⟩,
      .of_set (fun _ => gives_readPath) fun _ _ hd hp => ⟨hd.1, by simpa using hp⟩,
      .of_set (fun _ => .list fun _ => gives_readPath) fun _ _ hd _ => hd⟩
  · simp only [setRecord, Except.bind_eq_ok_iff, required_eq_ok_iff] at h
    obtain ⟨_, -, _, -, output, houtput, patches, hpatches, h⟩ := h
    obtain rfl := Except.ok.inj h
    exact ⟨hd.1 output houtput, hd.2 patches hpatches⟩

theorem gives_file : fileRecord.read.Gives cs fun f _ => f.output.IsNormal ∧ f.patch.IsNormal := by
  refine Record.gives_read (fun d => (∀ p ∈ d.output, p.IsNormal) ∧ ∀ p ∈ d.patch, p.IsNormal)
    ⟨nofun, nofun⟩ ?_ fun d f hd h => ?_
  · simp only [fileRecord, List.forall_mem_cons, List.not_mem_nil, false_imp_iff, implies_true,
      and_true]
    exact ⟨.of_set (fun _ => gives_readPath) fun _ _ hd _ => hd,
      .of_set (fun _ => gives_readPath) fun _ _ hd hp => ⟨by simpa using hp, hd.2⟩,
      .of_set (fun _ => gives_readPath) fun _ _ hd hp => ⟨hd.1, by simpa using hp⟩⟩
  · simp only [fileRecord, Except.bind_eq_ok_iff, required_eq_ok_iff] at h
    obtain ⟨_, -, output, houtput, patch, hpatch, h⟩ := h
    obtain rfl := Except.ok.inj h
    exact ⟨hd.1 output houtput, hd.2 patch hpatch⟩

theorem gives_stage : stageRecord.read.Gives cs fun s _ => s.HasNormalPaths := by
  refine Record.gives_read
    (fun d => (∀ s ∈ d.sets.getD [], s.output.IsNormal ∧ s.patches.IsNormal) ∧
      ∀ f ∈ d.files.getD [], f.output.IsNormal ∧ f.patch.IsNormal)
    ⟨nofun, nofun⟩ ?_ fun d s hd h => ?_
  · simp only [stageRecord, List.forall_mem_cons, List.not_mem_nil, false_imp_iff, implies_true,
      and_true]
    exact ⟨.of_set (fun _ => .text) fun _ _ hd _ => hd,
      .of_set (fun _ => .list fun _ => gives_set) fun _ _ hd hsets => ⟨hsets, hd.2⟩,
      .of_set (fun _ => .list fun _ => gives_file) fun _ _ hd hfiles => ⟨hd.1, hfiles⟩⟩
  · simp only [stageRecord, Except.bind_eq_ok_iff, required_eq_ok_iff] at h
    obtain ⟨_, -, h⟩ := h
    obtain rfl := Except.ok.inj h
    simp only [StageConfig.HasNormalPaths, StageConfig.outputs, StageConfig.patches,
      List.forall_mem_append, List.forall_mem_map]
    exact ⟨⟨fun s hs => (hd.1 s hs).1, fun f hf => (hd.2 f hf).1⟩, fun s hs => (hd.1 s hs).2,
      fun f hf => (hd.2 f hf).2⟩

theorem gives_config : record.read.Gives cs fun c _ => c.HasNormalPaths ∧ c.IsBounded := by
  refine Record.gives_read (fun d => (∀ stages ∈ d.stages, ∀ s ∈ stages, s.HasNormalPaths) ∧
    (∀ s ∈ d.source, s.retry.IsBounded) ∧ ∀ n ∈ d.context, n ≤ maxNatural) ⟨nofun, nofun, nofun⟩ ?_
      fun d c hd h => ?_
  · simp only [record, List.forall_mem_cons, List.not_mem_nil, false_imp_iff, implies_true,
      and_true]
    exact ⟨.of_set (fun _ => gives_source) fun _ _ hd hs => ⟨hd.1, by simpa using hs, hd.2.2⟩,
      .of_set (fun _ => .list fun _ => gives_stage) fun _ _ hd hstages =>
        ⟨by simpa using hstages, hd.2⟩,
      .of_set (fun _ => .natural) fun _ _ hd hn => ⟨hd.1, hd.2.1, by simpa using hn⟩⟩
  · simp only [record, Except.bind_eq_ok_iff, required_eq_ok_iff] at h
    obtain ⟨source, hsource, stages, hstages, h⟩ := h
    obtain rfl := Except.ok.inj h
    obtain ⟨hpaths, hretry, hcontext⟩ := hd
    refine ⟨?paths, hretry source hsource, ?context⟩
    case paths =>
      simp only [HasNormalPaths, outputs, patches, List.mem_flatMap, forall_exists_index, and_imp]
      exact ⟨fun p s hs => (hpaths stages hstages s hs).1 p, fun p s hs =>
        (hpaths stages hstages s hs).2 p⟩
    case context =>
      cases hn : d.context with
      | none => exact (by decide : Patch.defaultContext ≤ maxNatural)
      | some n => exact hcontext n hn

/-- Normalisation gave the paths of a configuration that was read, and no line of its text starts
with two hyphens. -/
theorem of_ofText {s : String} {c : Config} (h : ofText s = .ok c) :
    c.HasNormalPaths ∧ Json.Tidy s.toList :=
  (Reader.of_run (fun _ => gives_config) h).imp_left And.left

theorem isBounded_of_ofText {s : String} {c : Config} (h : ofText s = .ok c) : c.IsBounded :=
  (Reader.of_run (fun _ => gives_config) h).1.2

theorem load_eq_ok_iff {path : DiskPath} {d : Disk} {c : Config} : load path d = .ok c ↔
    ∃ text, d.text path = .ok text ∧ ofText text = .ok c ∧ c.IsValid := by
  unfold load
  simp only [Except.bind_eq_ok_iff, Except.mapError_eq_ok_iff]
  refine exists_congr fun text => and_congr_right fun _ => ?_
  constructor
  · rintro ⟨c', hc', h⟩
    split at h
    · cases h
    · rename_i hvalid
      obtain rfl := Except.ok.inj h
      exact ⟨hc', hvalid⟩
  · rintro ⟨hc, hvalid⟩
    exact ⟨c, hc, by rw [show c.fault? = none from hvalid]; rfl⟩

end Config

end Patchwork
