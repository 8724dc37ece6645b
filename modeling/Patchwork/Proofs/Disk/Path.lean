import Mathlib.Data.List.Induction
import Mathlib.Data.List.TakeWhile
import Patchwork.Disk.Path
import Patchwork.Proofs.TreePath

/-!
# Steps of joined paths

A path that normalisation gives has the names of its location (`IsNormal`), and these are joined to
the path of the directory that it is taken from. Each name that is joined adds one step to those of
the path (`steps_belowNames`), however the path is written.
-/
namespace Patchwork

theorem Text.endsWith_iff {s suffix : String} :
    s.endsWith suffix = true ↔ suffix.toList <:+ s.toList := by
  rw [← String.endsWith_toSlice, String.Slice.endsWith_string_iff, String.copy_toSlice]

namespace TreePath

def location (p : TreePath) : Location := p.components.filterMap FileName.ofChars?

theorem ofChars?_toList (name : FileName) : FileName.ofChars? name.text.toList = some name := by
  simp [FileName.ofChars?, name.isFileName]

@[simp] theorem location_ofLocation (l : Location) : (ofLocation l).location = l := by
  simp [location, components_ofLocation, List.filterMap_map, ofChars?_toList]

theorem IsStable.ofLocation_location {p : TreePath} (h : p.IsStable) :
    ofLocation p.location = p := by
  obtain ⟨l, rfl⟩ := h.exists_ofLocation
  rw [location_ofLocation]

/-- What normalisation gives for some text. -/
def IsNormal (p : TreePath) : Prop := ∃ s, ofString s = .ok p

/-- The paths that normalisation gives are those of the locations without backslashes. A `.` in
front keeps the first name from being taken for a drive. -/
theorem isNormal_ofLocation_iff {l : Location} :
    (ofLocation l).IsNormal ↔ ∀ name ∈ l, '\\' ∉ name.text.toList := by
  constructor
  · rintro ⟨s, h⟩
    obtain ⟨m, hm, hname⟩ := exists_ofLocation_of_ofString h
    rwa [ofLocation_injective hm]
  · intro h
    have hnames : namesOfText ('.' :: '/' :: (ofLocation l).text.toList) = l.map
        (·.text.toList) := by
      have hdot : namesOfText ('.' :: '/' :: (ofLocation l).text.toList) =
          namesOfText (ofLocation l).text.toList := by
        simp [namesOfText, List.splitOnP_cons_eq_if_modifyHead, isSeparator]
      rw [hdot, toList_ofLocation, namesOfText_intercalate]
      intro name hmem
      obtain ⟨n, hn, rfl⟩ := List.mem_map.1 hmem
      exact ⟨n.isFileName, h n hn⟩
    refine ⟨String.ofList ('.' :: '/' :: (ofLocation l).text.toList),
      ofString_eq_ok_iff.2 ⟨?_, ?_, ?_⟩⟩
    · simp [isAbsoluteText, isSeparator]
    · rw [String.toList_ofList, hnames]
      intro hup
      obtain ⟨n, -, hn⟩ := List.mem_map.1 hup
      exact n.isFileName.2.2.1 hn
    · rw [String.toList_ofList, hnames, ofNames, ← toList_ofLocation, String.ofList_toList]

theorem IsNormal.ofLocation_location {p : TreePath} (h : p.IsNormal) :
    ofLocation p.location = p := by
  obtain ⟨s, hs⟩ := h
  obtain ⟨l, rfl, -⟩ := exists_ofLocation_of_ofString hs
  rw [location_ofLocation]

theorem isNormal_iff {p : TreePath} : p.IsNormal ↔
    ofLocation p.location = p ∧ ∀ name ∈ p.location, '\\' ∉ name.text.toList := by
  constructor
  · intro h
    have heq := h.ofLocation_location
    exact ⟨heq, isNormal_ofLocation_iff.1 (heq.symm ▸ h)⟩
  · rintro ⟨heq, h⟩
    exact heq ▸ isNormal_ofLocation_iff.2 h

instance (p : TreePath) : Decidable p.IsNormal := decidable_of_iff _ isNormal_iff.symm

theorem IsStable.isNormal {p : TreePath} (h : p.IsStable) : p.IsNormal := ⟨p.text, h⟩

theorem IsNormal.eq_of_ofString {p q : TreePath} (h : p.IsNormal) (hq : ofString p.text = .ok q) :
    q = p := by
  have hstable : p.IsStable := by
    have heq := h.ofLocation_location
    rw [← heq, isStable_ofLocation_iff, heq]
    exact ⟨(ofString_eq_ok_iff.1 hq).1, (isNormal_iff.1 h).2⟩
  exact Except.ok.inj (hq.symm.trans hstable)

/-! ### The start of a path's text -/

/-- Whether a path starts at a root or at a drive shows in its first name. -/
theorem isAbsoluteText_append {first rest : List Char} (hfirst : first ≠ [])
    (hrest : rest.head? ≠ some ':') :
    isAbsoluteText (first ++ rest) = isAbsoluteText first := by
  match first, rest with
  | [c], [] => rfl
  | [c], s :: rest =>
    have hcolon : s ≠ ':' := by simpa using hrest
    simp [isAbsoluteText, hcolon]
  | c :: c' :: first, rest =>
    by_cases hcolon : c' = ':'
    · subst hcolon
      rfl
    · simp [isAbsoluteText, hcolon]

theorem exists_first_name (cs : List Char) : ∃ first rest, cs = first ++ rest ∧
    (∀ c ∈ first, isSeparator c = false) ∧ ∀ c ∈ rest.head?, isSeparator c = true := by
  refine ⟨cs.takeWhile (!isSeparator ·), cs.dropWhile (!isSeparator ·),
    List.takeWhile_append_dropWhile.symm, fun c hc => by
    simpa using List.mem_takeWhile_imp hc, fun c hc => ?_⟩
  have hhead := List.head?_dropWhile_not (!isSeparator ·) cs
  rw [Option.mem_def.1 hc] at hhead
  simpa using hhead

/-- No name of a normal path is `.`, so its text does not start with one. -/
theorem IsNormal.not_dot {q : TreePath} (h : q.IsNormal) {c : Char} (hc : isSeparator c = true)
    (rest : List Char) :
    q.text.toList ≠ '.' :: c :: rest := by
  obtain ⟨heq, hname⟩ := isNormal_iff.1 h
  intro htext
  rw [← heq] at htext
  have hslash : c = '/' := by
    have hmem : c ∈ (ofLocation q.location).text.toList := by simp [htext]
    rw [toList_ofLocation] at hmem
    rcases mem_of_mem_intercalate hmem with ⟨l, hl, hmem⟩ | hmem
    · obtain ⟨name, hn, rfl⟩ := List.mem_map.1 hl
      rcases (by simpa [isSeparator] using hc : c = '/' ∨ c = '\\') with rfl | rfl
      · rfl
      · exact absurd hmem (hname name hn)
    · simpa using hmem
  subst hslash
  have hcomponents := components_ofLocation q.location
  rw [components, htext, ← List.singleton_append,
    List.splitOn_append_cons_self_of_not_mem (by simp)] at hcomponents
  obtain ⟨name, names, hlocation⟩ : ∃ name names, q.location = name :: names :=
    List.exists_cons_of_ne_nil fun hnil => by simp [hnil] at hcomponents
  rw [hlocation] at hcomponents
  have hdot : ['.'] = name.text.toList := by simpa using (List.cons.inj hcomponents).1
  exact name.isFileName.2.1 hdot.symm

theorem exists_namesOfText_append {first rest : List Char}
    (hfirst : ∀ c ∈ first, isSeparator c = false) (hrest : ∀ c ∈ rest.head?, isSeparator c = true)
    (hnil : first ≠ []) (hdot : first ≠ ['.']) :
    ∃ names, namesOfText (first ++ rest) = first :: names := by
  cases rest with
  | nil =>
    refine ⟨[], ?_⟩
    rw [List.append_nil, namesOfText, List.splitOnP_eq_singleton hfirst]
    simp [hnil, hdot]
  | cons c rest =>
    refine ⟨namesOfText rest, ?_⟩
    rw [namesOfText, List.splitOnP_append_cons_of_forall_mem hfirst c (hrest c rfl),
      List.filter_cons_of_pos]
    · rfl
    · simp [hnil, hdot]

theorem isStable_of_ofString {s : String} {p q : TreePath} (hq : q.IsNormal)
    (hfront : s.toList <+: q.text.toList) (h : ofString s = .ok p) : p.IsStable := by
  obtain ⟨l, rfl, hname⟩ := exists_ofLocation_of_ofString h
  refine isStable_ofLocation_iff.2 ⟨?_, hname⟩
  obtain ⟨habsolute, -, htext⟩ := ofString_eq_ok_iff.1 h
  obtain ⟨first, rest, hs, hfirst, hrest⟩ := exists_first_name s.toList
  rw [← htext, ofNames, String.toList_ofList, hs]
  rw [hs] at habsolute hfront
  by_cases hnil : first = []
  · subst hnil
    cases rest with
    | nil => rfl
    | cons c rest =>
      have hc := hrest c rfl
      unfold isAbsoluteText at habsolute
      split at habsolute <;> simp_all
  by_cases hdot : first = ['.']
  · subst hdot
    cases rest with
    | nil => decide
    | cons c rest =>
      obtain ⟨more, hmore⟩ := hfront
      exact absurd hmore.symm (hq.not_dot (hrest c rfl) _)
  obtain ⟨names, hnames⟩ := exists_namesOfText_append hfirst hrest hnil hdot
  have hcolon : rest.head? ≠ some ':' := fun hc => absurd (hrest _ hc) (by decide)
  rw [isAbsoluteText_append hnil hcolon] at habsolute
  rw [hnames]
  cases names with
  | nil => simpa using habsolute
  | cons next names =>
    rw [List.intercalate_cons_cons, List.append_assoc, isAbsoluteText_append hnil (by simp),
      habsolute]

end TreePath

namespace DiskPath

theorem below_ofLocation (p : DiskPath) (l : Location) :
    p.below (TreePath.ofLocation l) = p.belowNames l := by
  simp [below, belowNames, TreePath.components_ofLocation, List.foldl_map]

theorem below_eq (p : DiskPath) {q : TreePath} (h : q.IsNormal) :
    p.below q = p.belowNames q.location := by
  rw [← below_ofLocation, h.ofLocation_location]

/-- The step of a first segment, which has one where others have none. -/
def leadingStep? (segment : List Char) : Option Step :=
  if segment = [] then some .root
  else if segment = ['.'] then some .here
  else stepOfSegment segment

theorem steps_eq {p : DiskPath} {first : List Char} {rest : List (List Char)}
    (h : p.segments = first :: rest) (hne : first ≠ [] ∨ rest ≠ []) :
    p.steps = (leadingStep? first).toList ++ rest.filterMap stepOfSegment := by
  unfold steps
  rw [h]
  split
  · simp_all
  · simp_all [leadingStep?]
  · simp_all [leadingStep?]
  · rename_i hroot hhere
    have hfirst : first ≠ [] := by
      rintro rfl
      exact hroot rest rfl
    have hdot : first ≠ ['.'] := by
      rintro rfl
      exact hhere rest rfl
    rw [leadingStep?, if_neg hfirst, if_neg hdot, List.filterMap_cons]
    cases stepOfSegment first <;> rfl

theorem stepOfSegment_toList (name : FileName) :
    stepOfSegment name.text.toList = some (.into name) := by
  rw [stepOfSegment, if_neg name.isFileName.2.2.1, TreePath.ofChars?_toList]
  rfl

theorem toList_join (p : DiskPath) (name : FileName) :
    p.text.toList = [] ∧ (p.join ⟨name.text⟩).text = name.text ∨
      ∃ cs, (p.join ⟨name.text⟩).text.toList = cs ++ '/' :: name.text.toList ∧
        (p.text.toList = cs ∧ cs ≠ [] ∨ p.text.toList = cs ++ ['/']) := by
  have hstart : name.text.startsWith "/" = false := by
    rw [Bool.eq_false_iff, ne_eq, String.startsWith_string_iff]
    exact fun h => name.isFileName.2.2.2 (h.subset List.mem_cons_self)
  by_cases hempty : p.text = ""
  · left
    simp [join, hempty]
  · right
    have hne : p.text.toList ≠ [] := by simpa using hempty
    by_cases hend : p.text.endsWith "/" = true
    · obtain ⟨cs, hcs⟩ := Text.endsWith_iff.1 hend
      refine ⟨cs, ?_, .inr hcs.symm⟩
      rw [join, if_neg (by simp [hstart, hempty]), if_pos hend, String.toList_append, ← hcs]
      simp
    · refine ⟨p.text.toList, ?_, .inl ⟨rfl, hne⟩⟩
      rw [join, if_neg (by simp [hstart, hempty]), if_neg hend]
      simp

theorem splitOn_toList (name : FileName) : name.text.toList.splitOn '/' = [name.text.toList] :=
  List.splitOn_eq_singleton name.isFileName.2.2.2

theorem exists_segments_join (p : DiskPath) (name : FileName) :
    ∃ init, (p.join ⟨name.text⟩).segments = init ++ [name.text.toList] := by
  unfold segments
  rcases toList_join p name with ⟨-, hjoin⟩ | ⟨cs, hjoin, -⟩
  · exact ⟨[], by rw [hjoin, splitOn_toList, List.nil_append]⟩
  · exact ⟨cs.splitOn '/', by rw [hjoin, List.splitOn_append_cons_self, splitOn_toList]⟩

theorem segments_join (p : DiskPath) (name : FileName) :
    p.steps = [] ∧ (p.join ⟨name.text⟩).segments = [name.text.toList] ∨
      ∃ first rest, (p.join ⟨name.text⟩).segments = first :: (rest ++ [name.text.toList]) ∧
        p.steps = (leadingStep? first).toList ++ rest.filterMap stepOfSegment := by
  rcases toList_join p name with ⟨hp, hjoin⟩ | ⟨cs, hjoin, hp⟩
  · exact .inl ⟨by simp [steps, segments, hp], by rw [segments, hjoin, splitOn_toList]⟩
  · obtain ⟨first, rest, hcs⟩ := List.exists_cons_of_ne_nil (List.splitOn_ne_nil '/' cs)
    refine .inr ⟨first, rest, ?_, ?_⟩
    · rw [segments, hjoin, List.splitOn_append_cons_self, splitOn_toList, hcs, List.cons_append]
    · rcases hp with ⟨hp, hne⟩ | hp
      · refine steps_eq (by rw [segments, hp, hcs]) ?_
        by_contra! hnil
        refine hne ?_
        have hjoined : ['/'].intercalate (cs.splitOn '/') = cs := List.intercalate_splitOn '/'
        rw [← hjoined, hcs, hnil.1, hnil.2]
        rfl
      · have hp' : p.segments = first :: (rest ++ [[]]) := by
          rw [segments, hp, List.splitOn_append_cons_self, hcs, List.splitOn_nil, List.cons_append]
        rw [steps_eq hp' (.inr (by simp)), List.filterMap_append]
        simp [stepOfSegment, FileName.ofChars?, IsFileName]

theorem steps_join (p : DiskPath) (name : FileName) :
    (p.join ⟨name.text⟩).steps = p.steps ++ [.into name] := by
  rcases segments_join p name with ⟨hp, hsegments⟩ | ⟨first, rest, hsegments, hp⟩
  · have hname := name.isFileName
    rw [steps_eq hsegments (.inl hname.1), leadingStep?, if_neg hname.1, if_neg hname.2.1,
      stepOfSegment_toList, hp]
    simp
  · rw [steps_eq hsegments (.inr (by simp)), hp, List.filterMap_append, ← List.append_assoc]
    simp [stepOfSegment_toList]

theorem lastSegment?_join (p : DiskPath) (name : FileName) :
    (p.join ⟨name.text⟩).lastSegment? = some name.text.toList := by
  obtain ⟨init, hinit⟩ := exists_segments_join p name
  rw [lastSegment?, hinit, List.filter_append]
  simp [name.isFileName.1]

theorem route_join (p : DiskPath) (name : FileName) :
    (p.join ⟨name.text⟩).route = p.steps ++ [.into name] := by
  rw [route, lastSegment?_join, if_neg (by simp [name.isFileName.2.1]), steps_join]

theorem asksForDirectory_join (p : DiskPath) (name : FileName) :
    (p.join ⟨name.text⟩).asksForDirectory = false := by
  obtain ⟨init, hinit⟩ := exists_segments_join p name
  simp [asksForDirectory, hinit, isIdle, name.isFileName.1, name.isFileName.2.1]

theorem belowNames_concat (p : DiskPath) (names : Location) (name : FileName) :
    p.belowNames (names ++ [name]) = (p.belowNames names).join ⟨name.text⟩ := by
  simp [belowNames]

theorem steps_belowNames (p : DiskPath) (names : Location) :
    (p.belowNames names).steps = p.steps ++ names.map .into := by
  induction names using List.reverseRecOn with
  | nil => simp [belowNames]
  | append_singleton names name ih => rw [belowNames_concat, steps_join, ih]; simp

theorem route_belowNames (p : DiskPath) {names : Location} (h : names ≠ []) :
    (p.belowNames names).route = p.steps ++ names.map .into := by
  obtain ⟨init, name, rfl⟩ := (List.eq_nil_or_concat' names).resolve_left h
  rw [belowNames_concat, route_join, steps_belowNames]
  simp

theorem asksForDirectory_belowNames (p : DiskPath) {names : Location} (h : names ≠ []) :
    (p.belowNames names).asksForDirectory = false := by
  obtain ⟨init, name, rfl⟩ := (List.eq_nil_or_concat' names).resolve_left h
  rw [belowNames_concat, asksForDirectory_join]

theorem text_belowNames_ne (p : DiskPath) {names : Location} (h : names ≠ []) :
    (p.belowNames names).text ≠ "" := by
  obtain ⟨init, name, rfl⟩ := (List.eq_nil_or_concat' names).resolve_left h
  rw [belowNames_concat, ← String.toList_inj.ne]
  rcases toList_join (p.belowNames init) name with ⟨-, hjoin⟩ | ⟨cs, hjoin, -⟩
  · rw [hjoin]
    exact name.isFileName.1
  · simp [hjoin]

/-! ## The directory that a joined name lies in -/

theorem stepOfSegment_of_isIdle {segment : List Char} (h : isIdle segment = true) :
    stepOfSegment segment = none := by
  have h : segment = [] ∨ segment = ['.'] := by simpa [isIdle] using h
  rcases h with rfl | rfl <;> rfl

theorem filterMap_trimIdle (segments : List (List Char)) :
    (trimIdle segments).filterMap stepOfSegment = segments.filterMap stepOfSegment := by
  unfold trimIdle
  induction segments using List.reverseRecOn with
  | nil => rfl
  | append_singleton segments last ih =>
    rw [List.reverse_concat, List.dropWhile_cons]
    cases hidle : isIdle last with
    | true => simpa [stepOfSegment_of_isIdle hidle] using ih
    | false => simp

theorem trimIdle_subset (segments : List (List Char)) : trimIdle segments ⊆ segments := by
  intro segment h
  exact List.mem_reverse.1 ((List.dropWhile_sublist _).subset (List.mem_reverse.1 h))

theorem trimIdle_concat (segments : List (List Char)) (name : FileName) :
    trimIdle (segments ++ [name.text.toList]) = segments ++ [name.text.toList] := by
  have hname := name.isFileName
  simp [trimIdle, isIdle, hname.1, hname.2.1]

theorem parent?_of_segments {p : DiskPath} {first : List Char} {rest : List (List Char)}
    {name : FileName} (h : p.segments = first :: (rest ++ [name.text.toList])) :
    p.parent? = if trimIdle rest = [] then some ⟨if first.isEmpty then "/" else String.ofList first⟩
      else some ⟨String.ofList (List.intercalate ['/'] (first :: trimIdle rest))⟩ := by
  rw [parent?, h]
  dsimp only
  rw [trimIdle_concat]
  split
  · simp_all
  · rw [List.dropLast_concat]
    split
    · rename_i hrest
      rw [if_pos hrest]
    · rename_i hrest
      rw [if_neg hrest]

/-- The directory of a path with a name joined to it is where the path leads. The empty path leads
nowhere, which is where `.` leads. -/
theorem steps_directory_join (p : DiskPath) (name : FileName) :
    (p.join ⟨name.text⟩).directory.steps = p.steps ∨
      p.steps = [] ∧ (p.join ⟨name.text⟩).directory.steps = [.here] := by
  rcases segments_join p name with ⟨hp, hsegments⟩ | ⟨first, rest, hsegments, hp⟩
  · have hname : name.text.toList.isEmpty = false := by simpa using name.isFileName.1
    have hparent : (p.join ⟨name.text⟩).parent? = some ⟨""⟩ := by
      rw [parent?, hsegments]
      simp [trimIdle, hname]
    refine .inr ⟨hp, ?_⟩
    rw [directory, hparent]
    rfl
  · have hplain : ∀ segment ∈ first :: rest, '/' ∉ segment := by
      intro segment hmem
      have hmem' : segment ∈ (p.join ⟨name.text⟩).segments := by
        rw [hsegments]
        simp only [List.mem_cons, List.mem_append] at hmem ⊢
        rcases hmem with h | h <;> simp [h]
      exact fun h => by simpa using (forall_mem_of_mem_splitOnP hmem' '/' h).2
    left
    rw [hp, ← filterMap_trimIdle rest]
    have hsub : ∀ segment ∈ trimIdle rest, '/' ∉ segment := fun segment hmem =>
      hplain segment (List.mem_cons_of_mem _ (trimIdle_subset rest hmem))
    have hparent := parent?_of_segments hsegments
    cases hrest : trimIdle rest with
    | nil =>
      rw [if_pos hrest] at hparent
      rw [directory, hparent]
      dsimp only
      by_cases hfirst : first = []
      · subst hfirst
        rfl
      · have hne : first.isEmpty = false := by simpa using hfirst
        have hsegment : (DiskPath.mk (String.ofList first)).segments = [first] := by
          rw [segments, String.toList_ofList]
          exact List.splitOn_eq_singleton (hplain first (by simp))
        rw [hne, if_neg Bool.false_ne_true, if_neg (by simpa using hfirst),
          steps_eq hsegment (.inl hfirst)]
    | cons next others =>
      rw [if_neg (by simp [hrest]), hrest] at hparent
      rw [directory, hparent]
      dsimp only
      have hsegment : (DiskPath.mk (String.ofList
          (List.intercalate ['/'] (first :: next :: others)))).segments =
            first :: next :: others := by
        rw [segments, String.toList_ofList, List.splitOn_intercalate _ _ (by simp)]
        refine List.forall_mem_cons.2 ⟨hplain first (by simp), ?_⟩
        rwa [hrest] at hsub
      rw [if_neg (by simp), steps_eq hsegment (.inr (by simp))]

/-- A path with a name at its end is that name joined to what stands in front of it. -/
theorem exists_join {p : DiskPath} {init : List (List Char)} {last : List Char}
    (h : p.segments = init ++ [last]) (hlast : IsFileName last) :
    ∃ (q : DiskPath) (name : FileName), p = q.join ⟨name.text⟩ := by
  have htext : p.text.toList = init.flatMap (· ++ ['/']) ++ last := by
    rw [← intercalate_concat, ← h, segments, List.intercalate_splitOn]
  have hstart : (String.ofList last).startsWith "/" = false := by
    rw [Bool.eq_false_iff, ne_eq, String.startsWith_string_iff, String.toList_ofList]
    exact fun hslash => hlast.2.2.2 (by simpa using hslash.subset List.mem_cons_self)
  refine ⟨⟨String.ofList (init.flatMap (· ++ ['/']))⟩,
    ⟨String.ofList last, by simpa using hlast⟩, ?_⟩
  suffices hjoin : (DiskPath.join ⟨String.ofList (init.flatMap (· ++ ['/']))⟩
    ⟨String.ofList last⟩).text.toList = p.text.toList from congrArg DiskPath.mk
    (String.toList_inj.1 hjoin.symm)
  rw [join, hstart, Bool.false_or]
  rcases List.eq_nil_or_concat' init with rfl | ⟨init, segment, rfl⟩
  · simp [htext]
  · have hend : (String.ofList ((init ++ [segment]).flatMap (· ++ ['/']))).endsWith "/" = true := by
      rw [Text.endsWith_iff, String.toList_ofList (l := (init ++ [segment]).flatMap _),
        List.flatMap_append, List.flatMap_singleton, ← List.append_assoc]
      exact List.suffix_append _ _
    rw [if_neg (by simp), if_pos hend, htext]
    simp

theorem exists_steps_up {p : DiskPath} {init : List (List Char)}
    (h : p.segments = init ++ [['.', '.']]) :
    ∃ front, p.steps = front ++ [.up] := by
  cases init with
  | nil => exact ⟨[], by rw [steps_eq h (.inl (by simp))]; rfl⟩
  | cons first rest =>
    refine ⟨(leadingStep? first).toList ++ rest.filterMap stepOfSegment, ?_⟩
    rw [List.cons_append] at h
    rw [steps_eq h (.inr (by simp)), List.filterMap_append, ← List.append_assoc]
    rfl

/-- What does not ask for a directory ends in a name, or goes up last. -/
theorem exists_join_or_steps_up {p : DiskPath} (h : p.asksForDirectory = false) :
    (∃ (q : DiskPath) (name : FileName), p = q.join ⟨name.text⟩) ∨
      ∃ front, p.steps = front ++ [.up] := by
  obtain ⟨init, last, hsegments⟩ :=
    (List.eq_nil_or_concat' p.segments).resolve_left (List.splitOn_ne_nil _ _)
  by_cases hup : last = ['.', '.']
  · exact .inr (exists_steps_up (hup ▸ hsegments))
  · refine .inl (exists_join hsegments ?_)
    have hidle : last ≠ [] ∧ last ≠ ['.'] := by simpa [asksForDirectory, hsegments, isIdle] using h
    have hmem : last ∈ p.segments := by simp [hsegments]
    exact ⟨hidle.1, hidle.2, hup, fun hslash => by
      simpa using (forall_mem_of_mem_splitOnP hmem '/' hslash).2⟩

theorem prefix_of_trimIdle (segments : List (List Char)) : trimIdle segments <+: segments := by
  rw [trimIdle, ← List.reverse_suffix, List.reverse_reverse]
  exact List.dropWhile_suffix _

/-- The text of the directory of a path with a name joined to it is a start of the text of that
path, unless it is that of the root or of a path that leads nowhere. -/
theorem directory_join_prefix (p : DiskPath) (name : FileName) :
    (p.join ⟨name.text⟩).directory.text = "." ∨ (p.join ⟨name.text⟩).directory.text = "/" ∨
      (p.join ⟨name.text⟩).directory.text.toList <+: (p.join ⟨name.text⟩).text.toList := by
  rcases segments_join p name with ⟨-, hsegments⟩ | ⟨first, rest, hsegments, -⟩
  · have hname : name.text.toList.isEmpty = false := by simpa using name.isFileName.1
    left
    simp [directory, parent?, hsegments, trimIdle, hname]
  · have htext : (p.join ⟨name.text⟩).text.toList =
        List.intercalate ['/'] (first :: (rest ++ [name.text.toList])) := by
      rw [← hsegments, segments, List.intercalate_splitOn]
    obtain ⟨q, hq, hstart⟩ : ∃ q, (p.join ⟨name.text⟩).parent? = some q ∧
        (q.text = "/" ∨ q.text.toList <+: (p.join ⟨name.text⟩).text.toList) := by
      rw [parent?_of_segments hsegments, htext]
      split_ifs with hrest hfirst
      · exact ⟨_, rfl, .inl rfl⟩
      · refine ⟨_, rfl, .inr ?_⟩
        have hstart : [first] <+: first :: (rest ++ [name.text.toList]) :=
          List.cons_prefix_cons.2 ⟨rfl, List.nil_prefix⟩
        simpa using intercalate_prefix ['/'] hstart
      · refine ⟨_, rfl, .inr ?_⟩
        rw [String.toList_ofList]
        refine intercalate_prefix _ (List.cons_prefix_cons.2 ⟨rfl, ?_⟩)
        exact (prefix_of_trimIdle rest).trans (List.prefix_append _ _)
    rw [directory, hq]
    dsimp only
    split_ifs
    · exact .inl rfl
    · exact .inr hstart

theorem text_directory_ne (p : DiskPath) : p.directory.text ≠ "" := by
  unfold directory
  split
  · decide
  · split_ifs with hempty
    · decide
    · simpa using hempty

/-- A route has the steps of its path, and at most one more that stays where they lead. -/
theorem route_eq (p : DiskPath) : p.route = p.steps ∨ p.route = p.steps ++ [.here] := by
  unfold route
  split
  · exact .inr rfl
  · exact .inl rfl

theorem trimIdle_append {segments idle : List (List Char)}
    (h : ∀ segment ∈ idle, isIdle segment = true) :
    trimIdle (segments ++ idle) = trimIdle segments := by
  rw [trimIdle, List.reverse_append,
    List.dropWhile_append_of_pos fun segment hmem => h segment (List.mem_reverse.1 hmem)]
  rfl

/-- Neither the steps of a path nor its directory depend on idle segments at the end. -/
theorem steps_directory_congr {p q : DiskPath} {first : List Char} {rest idle : List (List Char)}
    (hp : p.segments = first :: (rest ++ idle)) (hq : q.segments = first :: rest)
    (hne : first ≠ [] ∨ rest ≠ []) (hidle : ∀ segment ∈ idle, isIdle segment = true) :
    p.steps = q.steps ∧ p.directory = q.directory := by
  have htrim : trimIdle (rest ++ idle) = trimIdle rest := trimIdle_append hidle
  constructor
  · rw [steps_eq hp (hne.imp_right fun h => by simp [h]), steps_eq hq hne,
      ← filterMap_trimIdle (rest ++ idle), htrim, filterMap_trimIdle]
  · have hparent : p.parent? = q.parent? := by
      rw [parent?, parent?, hp, hq]
      dsimp only
      rw [htrim]
    rw [directory, directory, hparent]

/-- A path ends in a name, but for separators behind it: it has the steps and the directory of one
to which the name is joined. -/
def EndsIn (p : DiskPath) (name : FileName) : Prop :=
  ∃ q : DiskPath, p.route = q.steps ++ [.into name] ∧ p.directory = (q.join ⟨name.text⟩).directory

theorem exists_endsIn {p : DiskPath} (h : p.endsInDots = false) : ∃ name, p.EndsIn name := by
  obtain ⟨last, hlast, hdot, hup⟩ : ∃ last, p.lastSegment? = some last ∧ last ≠ ['.'] ∧
      last ≠ ['.', '.'] := by
    unfold endsInDots at h
    split at h
    · cases h
    · rename_i last hlast
      exact ⟨last, hlast, by simpa using h⟩
  obtain ⟨init, idle, hsegments, hne, hidle⟩ : ∃ init idle, p.segments = init ++ [last] ++ idle ∧
      last ≠ [] ∧ ∀ segment ∈ idle, isIdle segment = true := by
    obtain ⟨others, hothers⟩ := List.getLast?_eq_some_iff.1 hlast
    obtain ⟨front, back, hsegments, -, hback⟩ := List.filter_eq_append_iff.1 hothers
    obtain ⟨between, idle, rfl, -, hne, hidle⟩ := List.filter_eq_cons_iff.1 hback
    refine ⟨front ++ between, idle, by simp [hsegments], by simpa using hne, fun segment hmem => ?_⟩
    simpa [isIdle] using .inl (by simpa using List.filter_eq_nil_iff.1 hidle segment hmem)
  have hplain : ∀ segment ∈ init ++ [last], '/' ∉ segment := by
    intro segment hmem hslash
    have hmem : segment ∈ p.segments := hsegments ▸ List.mem_append_left _ hmem
    simpa using (forall_mem_of_mem_splitOnP hmem '/' hslash).2
  -- The same path without the separators at the end.
  let named : DiskPath := ⟨String.ofList (List.intercalate ['/'] (init ++ [last]))⟩
  have hnamed : named.segments = init ++ [last] := by
    rw [segments, String.toList_ofList, List.splitOn_intercalate _ hplain (by simp)]
  obtain ⟨q, name, hjoin⟩ := exists_join hnamed ⟨hne, hdot, hup, hplain last (by simp)⟩
  obtain ⟨first, rest, hfirst, hstart⟩ :
      ∃ first rest, init ++ [last] = first :: rest ∧ (first ≠ [] ∨ rest ≠ []) := by
    cases init with
    | nil => exact ⟨last, [], rfl, .inl hne⟩
    | cons first init => exact ⟨first, init ++ [last], rfl, .inr (by simp)⟩
  rw [hfirst] at hsegments hnamed
  obtain ⟨hsteps, hdirectory⟩ := steps_directory_congr hsegments hnamed hstart hidle
  refine ⟨name, q, ?_, hjoin ▸ hdirectory⟩
  rw [route, hlast, if_neg (by simpa using hdot), hsteps, hjoin, steps_join]

end DiskPath

end Patchwork
