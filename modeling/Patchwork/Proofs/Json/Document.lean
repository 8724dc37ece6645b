import Patchwork.Json.Document
import Patchwork.Json.Reader
import Patchwork.Proofs.Json.Token

/-!
# Documents are read back

A reader reads a value back if it takes what was written of the value off the front of a text
(`Reader.ReadsBack`). A list is read back if its elements are, and a record if each of its fields
is, one that the record still lacks (`Record.Fills`); fields that are not written stay as they are
at the start.
-/
namespace Patchwork.Json

/-! ## The layout of documents -/

/-- What stands between brackets behind some parts of a list or record: the parts to come, each on
its line, and the closing bracket. -/
def remaining (depth : Nat) (closing : Char) : (first : Bool) → List (List Char) → List Char
  | true, [] => [closing]
  | false, [] => newline depth ++ [closing]
  | first, part :: parts =>
    (if first then [] else [',']) ++ newline
      (depth + 1) ++ part ++ remaining depth closing false parts

section Remaining

variable (depth : Nat) (closing : Char) (part : List Char) (parts : List (List Char))
    (rest : List Char)

theorem remaining_true_cons_append : remaining depth closing true (part :: parts) ++ rest =
    newline (depth + 1) ++ (part ++ (remaining depth closing false parts ++ rest)) := by
  simp [remaining]

theorem remaining_false_cons_append : remaining depth closing false (part :: parts) ++ rest =
    ',' :: (newline (depth + 1) ++ (part ++ (remaining depth closing false parts ++ rest))) := by
  simp [remaining]

end Remaining

theorem intercalate_append_closing (depth : Nat) (closing : Char) (part : List Char)
    (parts : List (List Char)) :
    List.intercalate [','] ((part :: parts).map (newline (depth + 1) ++ ·)) ++
        newline depth ++ [closing] =
      newline (depth + 1) ++ part ++ remaining depth closing false parts := by
  induction parts generalizing part with
  | nil => simp [remaining]
  | cons next parts ih =>
    rw [List.map_cons, List.map_cons, List.intercalate_cons_cons, ← List.map_cons]
    have ih := ih next
    simp only [List.append_assoc] at ih ⊢
    rw [ih]
    simp [remaining]

theorem enclose_eq (depth : Nat) (opening closing : Char) (parts : List (List Char)) :
    enclose depth opening closing parts = opening :: remaining depth closing true parts := by
  cases parts with
  | nil => rfl
  | cons part parts =>
    rw [enclose, List.isEmpty_cons, if_neg Bool.false_ne_true, intercalate_append_closing]
    rfl

theorem length_renderElements (depth : Nat) (vs : List Value) :
    (renderElements depth vs).length = vs.length := by
  induction vs with
  | nil => rfl
  | cons v vs ih => rw [renderElements, List.length_cons, List.length_cons, ih]

def StartsValue (c : Char) : Prop := c = '"' ∨ c.isDigit = true ∨ c = '[' ∨ c = '\x7b'

theorem exists_render_eq_cons (v : Value) (depth : Nat) :
    ∃ c cs, v.render depth = c :: cs ∧ StartsValue c := by
  cases v with
  | text s => exact ⟨_, _, by rw [Value.render, quoted], .inl rfl⟩
  | natural n =>
    obtain ⟨c, cs, hcs, hdigit⟩ := exists_toDigits_eq_cons n
    exact ⟨c, cs, by rw [Value.render, hcs], .inr (.inl hdigit)⟩
  | list vs => exact ⟨_, _, by rw [Value.render, enclose_eq], .inr (.inr (.inl rfl))⟩
  | record fields => exact ⟨_, _, by rw [Value.render, enclose_eq], .inr (.inr (.inr rfl))⟩

theorem StartsValue.isSpace_eq_false {c : Char} (h : StartsValue c) : isSpace c = false := by
  rcases h with rfl | hdigit | rfl | rfl
  · decide
  · have hspace : ∀ d, isSpace d = true → d.isDigit = false := by
      simp only [isSpace, Bool.or_eq_true, decide_eq_true_eq]
      rintro d (((rfl | rfl) | rfl) | rfl) <;> decide
    by_contra hc
    rw [hspace c (by simpa using hc)] at hdigit
    cases hdigit
  · decide
  · decide

theorem StartsValue.ne {c d : Char} (h : StartsValue c)
    (hd : d.isDigit = false ∧ d ≠ '"' ∧ d ≠ '[' ∧ d ≠ '\x7b') : c ≠ d := by
  rintro rfl
  rcases h with h | h | h | h <;> simp_all

theorem endsNumber_remaining (depth : Nat) {closing : Char} (parts : List (List Char))
    (rest : List Char) :
    EndsNumber (remaining depth closing false parts ++ rest) := by
  cases parts <;> exact endsNumber_cons (by decide) _

theorem length_le_remaining (depth : Nat) (closing : Char) (first : Bool)
    (parts : List (List Char)) :
    parts.length ≤ (remaining depth closing first parts).length := by
  induction parts generalizing first with
  | nil => exact Nat.zero_le _
  | cons part parts ih =>
    have ih := ih false
    simp only [remaining, newline, List.length_append, List.length_cons]
    omega

/-! ## Readers -/

namespace Reader

variable {α β : Type} {cs mid rest space : List Char} {a : α} {v : Value}

theorem bind_eq_ok {m : Reader α} {f : α → Reader β} {b : β} (hm : m cs = .ok (a, mid))
    (hf : f a mid = .ok (b, rest)) : (m >>= f) cs = .ok (b, rest) := by
  show (m cs >>= fun r => f r.1 r.2) = _
  rw [hm]
  exact hf

theorem map_eq_ok {m : Reader α} {f : α → β} (hm : m cs = .ok (a, rest)) :
    (f <$> m) cs = .ok (f a, rest) := by
  show (m cs >>= fun r => pure (f r.1, r.2)) = _
  rw [hm]
  rfl

theorem peek_append {c : Char} (hspace : ∀ d ∈ space, isSpace d = true) (hc : isSpace c = false) :
    peek (space ++ c :: rest) = .ok (some c, c :: rest) := by
  have hdrop : (space ++ c :: rest).dropWhile isSpace = c :: rest := by
    rw [List.dropWhile_append_of_pos hspace, List.dropWhile_cons_of_neg (by simp [hc])]
  unfold peek
  rw [hdrop]
  rfl

theorem peek_cons {c : Char} (hc : isSpace c = false) :
    peek (c :: rest) = .ok (some c, c :: rest) := by
  rw [← List.nil_append (c :: rest)]
  exact peek_append nofun hc

theorem isSpace_of_mem_newline {depth : Nat} : ∀ c ∈ newline depth, isSpace c = true := by
  intro c hc
  rcases List.mem_cons.1 hc with rfl | hc
  · decide
  · rw [List.eq_of_mem_replicate hc]
    decide

/-- What is written of the value is taken off the front of a text, with the spaces in front of it,
unless what follows could go on with a number. -/
def ReadsBack (m : Reader α) (v : Value) (a : α) : Prop :=
  ∀ depth space rest, (∀ c ∈ space, isSpace c = true) → EndsNumber rest →
    m (space ++ (v.render depth ++ rest)) = .ok (a, rest)

theorem text_quoted (space : List Char) (s : String) (hspace : ∀ c ∈ space, isSpace c = true) :
    text (space ++ (quoted s ++ rest)) = .ok (s, rest) := by
  refine bind_eq_ok (peek_append hspace (by decide)) ?_
  rw [if_pos rfl]
  refine bind_eq_ok rfl ?_
  have hstring : lift readString (s.toList.flatMap escapeChar ++ ['"'] ++ rest) = .ok
      (s.toList, rest) := by
    rw [List.append_assoc]
    exact readString_flatMap_escapeChar _ _
  refine bind_eq_ok hstring ?_
  rw [String.ofList_toList]
  rfl

theorem ReadsBack.map {m : Reader α} {f : α → β} (h : m.ReadsBack v a) :
    ReadsBack (do return f (← m)) v (f a) := fun depth space rest hspace hrest =>
  bind_eq_ok (h depth space rest hspace hrest) rfl

theorem readsBack_text (s : String) : text.ReadsBack (.text s) s := by
  intro depth space rest hspace _
  rw [Value.render]
  exact text_quoted space s hspace

theorem readsBack_parsed {parse : String → Except String α} {s : String} (h : parse s = .ok a) :
    (parsed parse).ReadsBack (.text s) a := by
  intro depth space rest hspace hrest
  refine bind_eq_ok (readsBack_text s depth space rest hspace hrest) ?_
  rw [h]
  rfl

theorem found_toDigits {n : Nat} (hn : n ≤ maxInteger) (hspace : ∀ c ∈ space, isSpace c = true)
    (hrest : EndsNumber rest) :
    found (space ++ (Nat.toDigits 10 n ++ rest)) = .ok (.number (.integer n), rest) := by
  obtain ⟨c, cs, hcs, hdigit⟩ := exists_toDigits_eq_cons n
  have hne : ∀ d, d.isDigit = false → c ≠ d := by
    rintro d hd rfl
    rw [hd] at hdigit
    cases hdigit
  have hnumber : number (c :: cs ++ rest) = .ok (.integer n, rest) := by
    have hread := readNumber_toDigits hn hrest
    rw [hcs] at hread
    unfold number
    split
    · exact absurd (List.cons.inj ‹_›).1 (hne _ (by decide))
    · exact hread
  rw [hcs]
  refine bind_eq_ok (peek_append hspace (StartsValue.isSpace_eq_false (.inr (.inl hdigit)))) ?_
  rw [List.cons_append] at hnumber
  -- A digit is none of the characters that values of other kinds start with.
  change StateT.run _ (c :: (cs ++ rest)) = _
  split
  case h_1 => cases ‹some c = none›
  case h_8 =>
    obtain rfl := Option.some.inj ‹some c = some _›
    rw [hdigit, Bool.or_true, if_pos rfl]
    exact bind_eq_ok hnumber rfl
  all_goals exact absurd (Option.some.inj ‹_›) (hne _ (by decide))

theorem readsBack_natural {wanted : String} {max n : Nat} (hn : n ≤ max) (hmax : max ≤ maxInteger) :
    (natural wanted max).ReadsBack (.natural n) n := by
  intro depth space rest hspace hrest
  rw [Value.render]
  refine bind_eq_ok (found_toDigits (hn.trans hmax) hspace hrest) ?_
  dsimp only
  rw [if_pos (by simpa using hn), Int.toNat_natCast]
  rfl

theorem readsBack_optional {value : Reader α} (h : value.ReadsBack v a) :
    (optional value).ReadsBack v (some a) := by
  intro depth space rest hspace hrest
  obtain ⟨c, cs, hcs, hstart⟩ := exists_render_eq_cons v depth
  have hvalue := h depth [] rest nofun hrest
  rw [hcs] at hvalue ⊢
  refine bind_eq_ok (peek_append hspace hstart.isSpace_eq_false) ?_
  rw [if_neg (by simpa using hstart.ne (by decide))]
  exact map_eq_ok hvalue

/-! ## Lists -/

variable {depth : Nat} {first : Bool}

theorem hasElement_remaining_cons {c : Char} {part : List Char} {parts : List (List Char)}
    (hc : isSpace c = false) (hclosing : c ≠ ']') :
    hasElement first (remaining depth ']' first ((c :: part) :: parts) ++ rest) = .ok
    (true, c :: part ++ (remaining depth ']' false parts ++ rest)) := by
  cases first with
  | true =>
    rw [remaining_true_cons_append]
    refine bind_eq_ok (peek_append isSpace_of_mem_newline hc) ?_
    dsimp only
    rw [if_neg hclosing, if_pos rfl]
    rfl
  | false =>
    rw [remaining_false_cons_append]
    refine bind_eq_ok (peek_cons (by decide)) ?_
    dsimp only
    rw [if_neg (by decide), if_neg (by decide), if_pos rfl]
    refine bind_eq_ok rfl ?_
    refine bind_eq_ok (peek_append isSpace_of_mem_newline hc) ?_
    dsimp only
    rw [if_neg hclosing]
    rfl

theorem hasElement_remaining_nil :
    hasElement first (remaining depth ']' first [] ++ rest) = .ok (false, ']' :: rest) := by
  cases first with
  | true =>
    refine bind_eq_ok (peek_cons (by decide)) ?_
    rfl
  | false =>
    rw [remaining, List.append_assoc]
    refine bind_eq_ok (peek_append isSpace_of_mem_newline (by decide)) ?_
    rfl

variable {value : Reader α} {write : α → Value} {as : List α}

/-- The elements are read one by one, up to the closing bracket. -/
theorem elements_remaining (h : ∀ a ∈ as, value.ReadsBack (write a) a) {limit : Nat}
    (hlimit : as.length < limit) :
    elements value first limit
      (remaining depth ']' first (renderElements depth (as.map write)) ++ rest) =
      .ok (as, rest) := by
  induction as generalizing first limit with
  | nil =>
    obtain _ | limit := limit
    · cases hlimit
    · exact bind_eq_ok hasElement_remaining_nil (bind_eq_ok rfl rfl)
  | cons a as ih =>
    obtain ⟨ha, h⟩ := List.forall_mem_cons.1 h
    obtain _ | limit := limit
    · cases hlimit
    · obtain ⟨c, part, hpart, hstart⟩ := exists_render_eq_cons (write a) (depth + 1)
      rw [List.map_cons, renderElements, hpart]
      refine bind_eq_ok
        (hasElement_remaining_cons hstart.isSpace_eq_false (hstart.ne (by decide))) ?_
      rw [← hpart, if_pos rfl]
      refine bind_eq_ok (ha _ [] _ nofun (endsNumber_remaining _ _ _)) ?_
      exact bind_eq_ok (ih h (Nat.lt_of_succ_lt_succ hlimit)) rfl

theorem readsBack_list (h : ∀ a ∈ as, value.ReadsBack (write a) a) :
    (list value).ReadsBack (.list (as.map write)) as := by
  intro depth space rest hspace hrest
  rw [Value.render, enclose_eq]
  refine bind_eq_ok (peek_append hspace (by decide)) ?_
  rw [if_pos rfl]
  refine bind_eq_ok rfl ?_
  refine bind_eq_ok rfl ?_
  refine elements_remaining h ?_
  -- The limit is a matter of the characters that are left, of which each element takes one at
  -- least.
  have hlength := length_le_remaining depth ']' true (renderElements depth (as.map write))
  rw [length_renderElements, List.length_map] at hlength
  rw [List.drop_one, List.tail_cons, List.append_eq, List.length_append]
  omega

end Reader

/-! ## Records -/

namespace Record

open Reader (bind_eq_ok peek_append peek_cons isSpace_of_mem_newline text_quoted)

variable {δ α : Type} {depth : Nat} {first : Bool} {rest : List Char}

theorem hasMember_remaining_cons {name : String} {part : List Char} {parts : List (List Char)} :
    hasMember first (remaining depth '\x7d' first ((quoted name ++ part) :: parts) ++ rest) =
      .ok (true, quoted name ++ (part ++ (remaining depth '\x7d' false parts ++ rest))) := by
  cases first with
  | true =>
    rw [remaining_true_cons_append, List.append_assoc]
    refine bind_eq_ok (peek_append isSpace_of_mem_newline (by decide)) ?_
    rfl
  | false =>
    rw [remaining_false_cons_append, List.append_assoc]
    refine bind_eq_ok (peek_cons (by decide)) ?_
    rw [if_neg (by decide), if_pos (by decide)]
    refine bind_eq_ok rfl ?_
    refine bind_eq_ok (peek_append isSpace_of_mem_newline (by decide)) ?_
    rfl

theorem hasMember_remaining_nil :
    hasMember first (remaining depth '\x7d' first [] ++ rest) = .ok (false, '\x7d' :: rest) := by
  cases first with
  | true => exact bind_eq_ok (peek_cons (by decide)) rfl
  | false =>
    rw [remaining, List.append_assoc]
    exact bind_eq_ok (peek_append isSpace_of_mem_newline (by decide)) rfl

/-- Reading the fields that were written takes a draft to another. Each of them is one that was not
read before. -/
inductive Fills : List (Field δ) → List (String × Value) → δ → δ → Prop
  | nil {unread : List (Field δ)} {draft : δ} : Fills unread [] draft draft
  | cons {unread unread' : List (Field δ)} {f : Field δ} {name : String} {v : Value}
    {fields : List (String × Value)}
      {draft draft' final : δ} (htake : takeField? name unread = some (f, unread'))
      (hvalue : (f.read draft).ReadsBack v draft') (hfields : Fills unread' fields draft' final) :
      Fills unread ((name, v) :: fields) draft final

variable {r : Record δ α} {fields : List (String × Value)} {draft : δ}

/-- The fields are read one by one, up to the closing brace, each by the field that its name
takes. -/
theorem members_remaining {unread : List (Field δ)} {start : δ}
    (h : Fills unread fields start draft) :
    r.members unread first start
      (remaining depth '\x7d' first (renderFields depth fields) ++ rest) =
      .ok (draft, rest) := by
  induction h generalizing first with
  | nil =>
    unfold members
    exact bind_eq_ok hasMember_remaining_nil (bind_eq_ok rfl rfl)
  | @cons unread unread' f name v fields start next final htake hvalue _ ih =>
    unfold members
    rw [renderFields, List.append_assoc]
    refine bind_eq_ok hasMember_remaining_cons ?_
    rw [if_pos rfl]
    refine bind_eq_ok (text_quoted [] name nofun) ?_
    change StateT.run _ _ = _
    split
    case h_2 hnone => rw [htake] at hnone; cases hnone
    case h_1 g gs hsome =>
      obtain ⟨rfl, rfl⟩ := Prod.mk.inj (Option.some.inj (hsome.symm.trans htake))
      refine bind_eq_ok (bind_eq_ok (peek_cons (by decide)) rfl) ?_
      refine bind_eq_ok
        (hvalue _ [' '] _ (List.forall_mem_singleton.2 rfl) (endsNumber_remaining _ _ _)) ?_
      exact ih

/-- A record is read back if the fields that were written fill a draft that is finished as the
record. -/
theorem readsBack_read {a : α} (h : ∃ draft, Fills r.fields fields r.start draft ∧
    r.finish draft = .ok a) :
    r.read.ReadsBack (.record fields) a := by
  obtain ⟨draft, hfields, hfinish⟩ := h
  intro depth space rest hspace _
  rw [Value.render, enclose_eq]
  refine bind_eq_ok (peek_append hspace (by decide)) ?_
  refine bind_eq_ok rfl ?_
  refine bind_eq_ok (members_remaining hfields) ?_
  rw [hfinish]
  rfl

end Record

/-- What is written as a document is read as a whole. -/
theorem Reader.run_document {α : Type} {value : Reader α} {v : Value} {a : α}
    (h : value.ReadsBack v a) :
    value.run v.document = .ok a := by
  have hvalue := h 0 [] ['\n'] nofun (endsNumber_cons (by decide) [])
  rw [run, Value.document, String.toList_ofList]
  exact Except.bind_eq_ok_iff.2 ⟨_, hvalue, rfl⟩

end Patchwork.Json
