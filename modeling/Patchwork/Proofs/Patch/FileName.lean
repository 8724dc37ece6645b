import Patchwork.Patch.FileName
import Patchwork.Proofs.Text.Lines

/-!
# Names in headers are read back

Unquoting undoes quoting, octet by octet (`unquoteName?_quoteName`). A header line therefore names
the path that it was written for, whether the name is quoted, closed by a tab or plain.
-/
namespace Patchwork

/-- A path that a file can have: not the root, and left alone by normalisation. -/
structure TreePath.IsFilePath (p : TreePath) : Prop where
  ne_root : p.isRoot = false
  stable : p.IsStable

instance (p : TreePath) : Decidable p.IsStable :=
  decidable_of_iff ((TreePath.ofString p.text).toOption = some p) <| by
    unfold TreePath.IsStable
    cases TreePath.ofString p.text <;> simp [Except.toOption]

instance (p : TreePath) : Decidable p.IsFilePath :=
  decidable_of_iff (p.isRoot = false ∧ p.IsStable)
    ⟨fun h => ⟨h.1, h.2⟩, fun h => ⟨h.ne_root, h.stable⟩⟩

namespace Patch

/-! ## Quoting -/

private theorem octalValue?_ofNat : ∀ m < 8, octalValue? (Char.ofNat ('0'.toNat + m)) = some m := by
  decide

private theorem escapedOctet?_ofNat :
    ∀ m < 8, escapedOctet? (Char.ofNat ('0'.toNat + m)) = none := by
  decide

@[simp] theorem octalValue?_octalDigit (n : Nat) : octalValue? (octalDigit n) = some (n % 8) :=
  octalValue?_ofNat _ (Nat.mod_lt n (by decide))

@[simp] theorem escapedOctet?_octalDigit (n : Nat) : escapedOctet? (octalDigit n) = none :=
  escapedOctet?_ofNat _ (Nat.mod_lt n (by decide))

theorem unquoteOctets_quoteOctet (b : UInt8) (rest : List Char) :
    unquoteOctets (quoteOctet b ++ rest) = (unquoteOctets rest).map (b :: ·) := by
  have hb : b.toNat < 256 := b.toNat_lt
  have hx : b.toNat / 64 % 8 ≤ 3 := by omega
  have hsum : b.toNat / 64 % 8 * 64 + b.toNat / 8 % 8 * 8 + b.toNat % 8 = b.toNat := by omega
  simp only [quoteOctet, List.cons_append, List.nil_append]
  rw [unquoteOctets]
  simp only [escapedOctet?_octalDigit, octalValue?_octalDigit]
  rw [if_pos hx, hsum, UInt8.ofNat_toNat]

theorem unquoteOctets_flatMap_quoteOctet (bs : List UInt8) (rest : List Char) :
    unquoteOctets (bs.flatMap quoteOctet ++ rest) = (unquoteOctets rest).map (bs ++ ·) := by
  induction bs with
  | nil => simp
  | cons b bs ih =>
    rw [List.flatMap_cons, List.append_assoc, unquoteOctets_quoteOctet, ih, Option.map_map]
    rfl

theorem unquoteOctets_cons {c : Char} (hq : c ≠ '"') (hb : c ≠ '\\') (rest : List Char) :
    unquoteOctets (c :: rest) = (unquoteOctets rest).map (String.utf8EncodeChar c ++ ·) := by
  rw [unquoteOctets]
  · exact hq
  · intro d ds h
    exact absurd h hb

theorem unquoteOctets_quoteChar (c : Char) (rest : List Char) :
    unquoteOctets (quoteChar c ++ rest) = (unquoteOctets rest).map
      (String.utf8EncodeChar c ++ ·) := by
  unfold quoteChar
  split
  · subst c; rfl
  · split
    · subst c; rfl
    · split
      · subst c; rfl
      · split
        · subst c; rfl
        · split
          · subst c; rfl
          · split
            · exact unquoteOctets_flatMap_quoteOctet _ rest
            · exact unquoteOctets_cons ‹_› ‹_› rest

theorem unquoteOctets_flatMap_quoteChar (cs rest : List Char) :
    unquoteOctets (cs.flatMap quoteChar ++ rest) =
      (unquoteOctets rest).map (cs.flatMap String.utf8EncodeChar ++ ·) := by
  induction cs with
  | nil => simp
  | cons c cs ih =>
    rw [List.flatMap_cons, List.append_assoc, unquoteOctets_quoteChar, ih, Option.map_map]
    simp [Function.comp_def]

theorem fromUTF8?_flatMap_utf8EncodeChar (cs : List Char) :
    String.fromUTF8? ⟨(cs.flatMap String.utf8EncodeChar).toArray⟩ = some (String.ofList cs) := by
  have hb : (⟨(cs.flatMap String.utf8EncodeChar).toArray⟩ : ByteArray) =
      (String.ofList cs).toByteArray := by
    apply ByteArray.ext
    rw [String.toByteArray_ofList, List.utf8Encode, List.data_toByteArray]
  rw [hb, String.fromUTF8?, dif_pos (String.ofList cs).isValidUTF8]
  rfl

/-- Unquoting undoes quoting, and stops at the closing quote. -/
theorem unquoteName?_quoteName_append (side : Side) (cs after : List Char) :
    unquoteName? (quoteName side cs ++ after) = some (String.ofList (side.mark ++ cs)) := by
  have hmark : ∀ rest, unquoteOctets (side.mark ++ rest) =
      (unquoteOctets rest).map (side.mark.flatMap String.utf8EncodeChar ++ ·) := by
    intro rest
    cases side <;>
      simp only [Side.mark, List.cons_append, List.nil_append] <;>
      rw [unquoteOctets_cons (by decide) (by decide), unquoteOctets_cons (by decide) (by decide),
        Option.map_map] <;> rfl
  rw [quoteName, List.cons_append, unquoteName?, List.append_assoc, List.append_assoc, hmark,
    unquoteOctets_flatMap_quoteChar, List.singleton_append, unquoteOctets, Option.map_some,
    Option.map_some, Option.bind_some, List.append_nil, ← List.flatMap_append,
    fromUTF8?_flatMap_utf8EncodeChar]

theorem unquoteName?_quoteName (side : Side) (cs : List Char) :
    unquoteName? (quoteName side cs) = some (String.ofList (side.mark ++ cs)) := by
  simpa using unquoteName?_quoteName_append side cs []

private theorem isControl_ofNat : ∀ m < 8, Text.isControl (Char.ofNat ('0'.toNat + m)) = false := by
  decide

theorem isControl_of_mem_quoteOctet {b : UInt8} {d : Char} (h : d ∈ quoteOctet b) :
    Text.isControl d = false := by
  have hdigit : ∀ n, Text.isControl (octalDigit n) = false := fun n =>
    isControl_ofNat _ (Nat.mod_lt n (by decide))
  simp only [quoteOctet, List.mem_cons, List.not_mem_nil, or_false] at h
  rcases h with rfl | rfl | rfl | rfl
  · decide
  all_goals exact hdigit _

/-- No character is quoted as one that would end the line or the name. -/
theorem isControl_of_mem_quoteChar {c d : Char} (h : d ∈ quoteChar c) :
    Text.isControl d = false := by
  have hpair : ∀ e : Char, Text.isControl e = false → d ∈ ['\\', e] →
      Text.isControl d = false := by
    intro e he hd
    simp only [List.mem_cons, List.not_mem_nil, or_false] at hd
    rcases hd with rfl | rfl
    · decide
    · exact he
  unfold quoteChar at h
  split at h
  · exact hpair _ (by decide) h
  · split at h
    · exact hpair _ (by decide) h
    · split at h
      · exact hpair _ (by decide) h
      · split at h
        · exact hpair _ (by decide) h
        · split at h
          · exact hpair _ (by decide) h
          · split at h
            · obtain ⟨b, -, hd⟩ := List.mem_flatMap.1 h
              exact isControl_of_mem_quoteOctet hd
            · rename_i hc
              rw [List.mem_singleton.1 h]
              exact Bool.eq_false_iff.2 hc

theorem isControl_of_mem_quoteName {side : Side} {cs : List Char} {d : Char}
    (h : d ∈ quoteName side cs) : Text.isControl d = false := by
  have hmark : ∀ c ∈ side.mark, Text.isControl c = false := by
    have hall : side.mark.all (fun c => !Text.isControl c) = true := by cases side <;> decide
    simpa using hall
  simp only [quoteName, List.mem_cons, List.mem_append, List.not_mem_nil, or_false] at h
  rcases h with rfl | (h | h) | rfl
  · decide
  · exact hmark d h
  · obtain ⟨c, -, hd⟩ := List.mem_flatMap.1 h
    exact isControl_of_mem_quoteChar hd
  · decide

/-! ## Names -/

theorem needsQuotes_eq_false {cs : List Char} (h : needsQuotes cs = false) {c : Char}
    (hc : c ∈ cs) :
    Text.isControl c = false ∧ c ≠ '"' := by
  have := List.any_eq_false.1 h c hc
  simp_all

theorem newline_notMem_headerName (side : Side) (path : TreePath) :
    '\n' ∉ headerName side path := by
  have hmark : '\n' ∉ side.mark := by cases side <;> decide
  unfold headerName
  dsimp only
  split
  · intro h
    exact absurd (isControl_of_mem_quoteName h) (by decide)
  · rename_i hq
    have hcs : '\n' ∉ path.text.toList := fun h =>
      absurd (needsQuotes_eq_false (Bool.eq_false_iff.2 hq) h).1 (by decide)
    split <;> simp [hmark, hcs]

theorem dropMark_append (side : Side) (cs : List Char) : dropMark side (side.mark ++ cs) = cs := by
  simp [dropMark]

theorem pathOfName_append_eq_ok_iff {number : Nat} {side : Side} {path q : TreePath} :
    pathOfName number side (side.mark ++ path.text.toList) = .ok q ↔
      TreePath.ofString path.text = .ok q ∧ q.isRoot = false := by
  rw [pathOfName, dropMark_append, String.ofList_toList]
  cases h : TreePath.ofString path.text with
  | error e => simp
  | ok r =>
    dsimp only
    split
    · rename_i hroot
      simp only [reduceCtorEq, Except.ok.injEq, false_iff, not_and]
      rintro rfl
      simp [hroot]
    · rename_i hroot
      simp only [Except.ok.injEq]
      constructor
      · rintro rfl
        exact ⟨rfl, Bool.eq_false_iff.2 hroot⟩
      · exact And.left

theorem readName_absentName (number : Nat) (side : Side) :
    readName number side (absentName ++ "\n") = .ok none := by
  rw [readName, Text.stripTerminator_append_newline (by decide)]
  rw [if_neg (by decide), if_pos (by decide)]

theorem readName_quoteName (number : Nat) (side : Side) (cs : List Char) :
    readName number side (String.ofList (quoteName side cs) ++ "\n") =
      (pathOfName number side (side.mark ++ cs)).map some := by
  have hlast : (quoteName side cs).getLast? = some '"' := by
    rw [quoteName, ← List.cons_append, List.getLast?_concat]
  rw [readName, Text.stripTerminator_append_newline (by rw [String.toList_ofList, hlast]; decide),
    String.toList_ofList, if_pos (by rfl), unquoteName?_quoteName]
  dsimp only
  rw [String.toList_ofList]

theorem readName_plain (number : Nat) (side : Side) {cs : List Char} (hq : needsQuotes cs = false)
    {tab : List Char} (ht : tab = [] ∨ tab = ['\t']) :
    readName number side (String.ofList (side.mark ++ cs ++ tab) ++ "\n") =
      (pathOfName number side (side.mark ++ cs)).map some := by
  have hmark : ∀ c ∈ side.mark, c ≠ '\t' ∧ c ≠ '\r' := by
    have hall : side.mark.all (fun c => c ≠ '\t' ∧ c ≠ '\r') = true := by cases side <;> decide
    simpa using hall
  have hmem : ∀ c ∈ side.mark ++ cs, c ≠ '\t' ∧ c ≠ '\r' := by
    intro c hc
    rcases List.mem_append.1 hc with hc | hc
    · exact hmark c hc
    · have hcontrol := (needsQuotes_eq_false hq hc).1
      constructor <;> rintro rfl <;> revert hcontrol <;> decide
  have htake : (side.mark ++ cs ++ tab).takeWhile (· ≠ '\t') = side.mark ++ cs := by
    rw [List.takeWhile_append_of_pos fun c hc => by simpa using (hmem c hc).1]
    rcases ht with rfl | rfl <;> simp
  have hlast : (side.mark ++ cs ++ tab).getLast? ≠ some '\r' := by
    intro hr
    rcases ht with rfl | rfl
    · rw [List.append_nil] at hr
      exact (hmem _ (List.mem_of_getLast? hr)).2 rfl
    · simp at hr
  have hhead : ∀ rest, (side.mark ++ rest).head? ≠ some '"' := by cases side <;> simp [Side.mark]
  have habsent : side.mark ++ cs ≠ absentName.toList := by
    intro he
    have := congrArg List.head? he
    cases side <;> revert this <;> simp [Side.mark, absentName]
  rw [readName, Text.stripTerminator_append_newline (by rwa [String.toList_ofList]),
    String.toList_ofList, if_neg (by rw [List.append_assoc]; exact hhead _)]
  simp only [htake]
  rw [if_neg habsent]

/-- A header line names what the text of the path it was written for is read as. -/
theorem readName_headerName (number : Nat) (side : Side) (path : TreePath) :
    readName number side (String.ofList (headerName side path) ++ "\n") =
      (pathOfName number side (side.mark ++ path.text.toList)).map some := by
  cases hq : needsQuotes path.text.toList with
  | true =>
    rw [headerName, if_pos hq]
    exact readName_quoteName number side _
  | false =>
    rw [headerName, if_neg (by simp [hq])]
    split
    · exact readName_plain number side hq (.inr rfl)
    · have := readName_plain number side hq (.inl rfl)
      rwa [List.append_nil] at this

theorem readName_headerName_of_isFilePath {path : TreePath} (h : path.IsFilePath) (number : Nat)
    (side : Side) :
    readName number side (String.ofList (headerName side path) ++ "\n") = .ok (some path) := by
  rw [readName_headerName, pathOfName_append_eq_ok_iff.2 ⟨h.stable, h.ne_root⟩]
  rfl

/-- A header line that is read names what the text of its path is read as. -/
theorem of_readName_headerName {number : Nat} {side : Side} {path : TreePath} {read}
    (h : readName number side (String.ofList (headerName side path) ++ "\n") = .ok read) :
    ∃ q, read = some q ∧ TreePath.ofString path.text = .ok q ∧ q.isRoot = false := by
  rw [readName_headerName] at h
  cases hname : pathOfName number side (side.mark ++ path.text.toList) with
  | error e =>
    rw [hname] at h
    cases h
  | ok q =>
    rw [hname] at h
    cases h
    exact ⟨q, rfl, pathOfName_append_eq_ok_iff.1 hname⟩

/-- A name that is quoted is read back, with the mark of its side, whatever follows the closing
quote. It holds no control character, so it stays on one line, and neither the end of that line nor
a time behind a tab takes anything from it. -/
theorem unquoteName?_headerName (side : Side) {path : TreePath}
    (hquoted : needsQuotes path.text.toList = true) :
    (∀ after, unquoteName? (headerName side path ++ after) =
      some (String.ofList side.mark ++ path.text)) ∧
    (∀ c ∈ headerName side path, Text.isControl c = false) ∧
    (∀ front rest : String, '\n' ∉ front.toList →
      Text.lines (front ++ String.ofList (headerName side path) ++ "\n" ++ rest) =
        (front ++ String.ofList (headerName side path) ++ "\n") :: Text.lines rest) ∧
    (∀ ending ∈ ["", "\n", "\r\n"], Text.stripTerminator
      (String.ofList (headerName side path) ++ ending) = String.ofList (headerName side path)) ∧
    ∀ time, (headerName side path ++ '\t' :: time).takeWhile (· ≠ '\t') = headerName side path := by
  have hname : headerName side path = quoteName side path.text.toList := if_pos hquoted
  have hcontrol : ∀ c ∈ headerName side path, Text.isControl c = false := by
    rw [hname]
    exact fun c hc => isControl_of_mem_quoteName hc
  have hother : ∀ c, Text.isControl c = true → ∀ d ∈ headerName side path, d ≠ c := by
    rintro c hc d hd rfl
    rw [hcontrol d hd] at hc
    cases hc
  have hlast : ∀ c, Text.isControl c = true →
      (String.ofList (headerName side path)).toList.getLast? ≠ some c := by
    intro c hc hlast
    rw [String.toList_ofList] at hlast
    exact hother c hc c (List.mem_of_getLast? hlast) rfl
  refine ⟨fun after => ?read, hcontrol, fun front rest hfront => ?line, fun ending hending =>
    ?ending, fun time => ?time⟩
  case read =>
    rw [hname, unquoteName?_quoteName_append, String.ofList_append, String.ofList_toList]
  case line =>
    have hnewline : '\n' ∉ (front ++ String.ofList (headerName side path)).toList := by
      simpa [hfront] using newline_notMem_headerName side path
    exact Text.lines_append_of_isTerminated (Text.isLine_append_newline hnewline)
      (Text.isTerminated_append_newline _)
  case ending =>
    exact Text.stripTerminator_append_ending (hlast _ (by decide)) (hlast _ (by decide)) hending
  case time =>
    rw [List.takeWhile_append_of_pos fun c hc => by simpa using hother '\t' (by decide) c hc]
    simp

/-- A name in which digits follow what is written in octal, with characters of two octets of both
kinds, a backslash and a quote. -/
def mixedName : TreePath := ⟨"d/\"1\\\x01\u00857\té\x7f0"⟩

theorem unquoteName?_headerName_mixedName :
    needsQuotes mixedName.text.toList = true ∧
    headerName .new mixedName = "\"b/d/\\\"1\\\\\\001\\302\\2057\\té\\1770\"".toList ∧
    (∀ after, unquoteName? (headerName .new mixedName ++ after) = some ("b/" ++ mixedName.text)) ∧
    (∀ c ∈ headerName .new mixedName, Text.isControl c = false) ∧
    ∀ time, (headerName .new mixedName ++ '\t' :: time).takeWhile (· ≠ '\t') =
      headerName .new mixedName := by
  have hquoted : needsQuotes mixedName.text.toList = true := by decide
  obtain ⟨hread, hcontrol, -, -, htime⟩ := unquoteName?_headerName .new hquoted
  exact ⟨hquoted, by decide +kernel, hread, hcontrol, htime⟩

end Patch

end Patchwork
