import Mathlib.Data.List.Infix
import Mathlib.Data.List.TakeWhile
import Patchwork.Json.Reader
import Patchwork.Proofs.Outcome

/-!
# What a reader of documents gives

A value that is read is as its kind asks, whatever stands in the text (`Reader.Gives`). And no line
of a text that is read starts with two hyphens (`Tidy`): one hyphen stands in front of the digits of
a number, and what stands in a string is on the line of its quote.
-/
namespace Patchwork.Json

/-! ## Lines that start with hyphens -/

/-- No line break is followed by two hyphens. -/
def IsPlain (cs : List Char) : Prop := ¬ ['\n', '-', '-'] <:+: cs

def Tidy (cs : List Char) : Prop := IsPlain ('\n' :: cs)

variable {c : Char} {cs front rest : List Char}

theorem IsPlain.cons (h : IsPlain cs) (hc : c ≠ '\n') : IsPlain (c :: cs) := by
  intro hin
  rcases List.infix_cons_iff.1 hin with hstart | hin
  · exact hc (List.cons_prefix_cons.1 hstart).1.symm
  · exact h hin

theorem IsPlain.append (h : IsPlain rest) (hfront : '\n' ∉ front) : IsPlain (front ++ rest) := by
  induction front with
  | nil => exact h
  | cons c front ih =>
    obtain ⟨hc, hfront⟩ := not_or.1 (List.mem_cons.not.1 hfront)
    exact (ih hfront).cons (Ne.symm hc)

theorem Tidy.isPlain (h : Tidy cs) : IsPlain cs :=
  fun hin => h (hin.trans (List.suffix_cons _ _).isInfix)

theorem tidy_iff : Tidy cs ↔ ¬ ['-', '-'] <+: cs ∧ IsPlain cs := by
  rw [Tidy, IsPlain, List.infix_cons_iff, not_or, List.cons_prefix_cons]
  simp [IsPlain]

theorem IsPlain.tidy_cons (h : IsPlain cs) (hc : c ≠ '\n') (hc' : c ≠ '-') : Tidy (c :: cs) :=
  tidy_iff.2 ⟨fun hstart => hc' (List.cons_prefix_cons.1 hstart).1.symm, h.cons hc⟩

theorem Tidy.cons (h : Tidy cs) (hc : c ≠ '-') : Tidy (c :: cs) := by
  refine tidy_iff.2 ⟨fun hstart => hc (List.cons_prefix_cons.1 hstart).1.symm, ?_⟩
  by_cases hline : c = '\n'
  · exact hline ▸ h
  · exact h.isPlain.cons hline

theorem Tidy.append (h : Tidy rest) (hfront : '-' ∉ front) : Tidy (front ++ rest) := by
  induction front with
  | nil => exact h
  | cons c front ih =>
    obtain ⟨hc, hfront⟩ := not_or.1 (List.mem_cons.not.1 hfront)
    exact (ih hfront).cons (Ne.symm hc)

theorem Tidy.of_dropWhile_isSpace (h : Tidy (cs.dropWhile isSpace)) : Tidy cs := by
  have hspace : '-' ∉ cs.takeWhile isSpace :=
    fun hmem => absurd (List.mem_takeWhile_imp hmem) (by decide)
  simpa using h.append hspace

/-! ## Strings and numbers -/

/-- What is left of a text after characters of its first line. -/
def IsLeftOf (rest cs : List Char) : Prop := ∃ front, '\n' ∉ front ∧ front ++ rest = cs

namespace IsLeftOf

theorem refl (cs : List Char) : IsLeftOf cs cs := ⟨[], by simp, rfl⟩

theorem trans {cs' : List Char} (h : IsLeftOf rest cs') (h' : IsLeftOf cs' cs) :
    IsLeftOf rest cs := by
  obtain ⟨front, hfront, rfl⟩ := h
  obtain ⟨front', hfront', rfl⟩ := h'
  exact ⟨front' ++ front, by simp [hfront, hfront'], by simp⟩

theorem cons (h : IsLeftOf rest cs) (hc : c ≠ '\n') : IsLeftOf rest (c :: cs) :=
  h.trans ⟨[c], by simpa using hc.symm, rfl⟩

theorem drop {n : Nat} (h : '\n' ∉ cs.take n) : IsLeftOf (cs.drop n) cs :=
  ⟨cs.take n, h, List.take_append_drop n cs⟩

theorem isPlain (h : IsLeftOf rest cs) (hrest : IsPlain rest) : IsPlain cs := by
  obtain ⟨front, hfront, rfl⟩ := h
  exact hrest.append hfront

end IsLeftOf

theorem readWord_eq_ok {word : List Char} (h : readWord word cs = .ok rest) :
    cs = word ++ rest := by
  induction word generalizing cs with
  | nil => exact Except.ok.inj h
  | cons c word ih =>
    cases cs with
    | nil => cases h
    | cons d cs =>
      rw [readWord] at h
      split_ifs at h with hcd
      rw [hcd, List.cons_append, ← ih h]

theorem newline_notMem_of_readHex {n : Nat} (h : readHex cs = .ok n) : '\n' ∉ cs.take 4 := by
  have hdigits : ∀ {cs : List Char} {digits : List Nat}, cs.mapM hexValue? = some digits →
      '\n' ∉ cs := by
    intro cs digits h
    induction cs generalizing digits with
    | nil => simp
    | cons c cs ih =>
      rw [List.mapM_cons] at h
      obtain ⟨digit, hdigit, h⟩ := Option.bind_eq_some_iff.1 h
      obtain ⟨rest, hrest, -⟩ := Option.bind_eq_some_iff.1 h
      refine fun hmem => (List.mem_cons.1 hmem).elim (fun hc => ?_) (ih hrest)
      rw [← hc, show hexValue? '\n' = none from rfl] at hdigit
      cases hdigit
  unfold readHex at h
  split_ifs at h
  split at h
  · rename_i digits hread
    exact hdigits hread
  · cases h

theorem isLeftOf_of_readNumbered {n : Nat} (h : readNumbered cs = .ok (c, n)) :
    IsLeftOf (cs.drop n) cs := by
  obtain ⟨high, hhigh, h⟩ := Except.bind_eq_ok_iff.1 h
  have hfour := newline_notMem_of_readHex hhigh
  split_ifs at h
  · obtain ⟨-, rfl⟩ := Prod.mk.inj (Except.ok.inj h)
    exact .drop hfour
  · split at h
    · rename_i rest hrest
      obtain ⟨low, hlow, h⟩ := Except.bind_eq_ok_iff.1 h
      split_ifs at h
      obtain ⟨-, rfl⟩ := Prod.mk.inj (Except.ok.inj h)
      have hdrop : cs.drop 10 = rest.drop 4 := by
        rw [show 10 = 4 + 6 from rfl, ← List.drop_drop, hrest]
        rfl
      rw [hdrop]
      have hrest' : IsLeftOf rest (cs.drop 4) := by
        rw [hrest]
        exact ((IsLeftOf.refl rest).cons (by decide)).cons (by decide)
      exact ((IsLeftOf.drop (newline_notMem_of_readHex hlow)).trans hrest').trans (.drop hfour)
    · cases h
    · cases h

theorem isLeftOf_of_readEscape {n : Nat} (h : readEscape cs = .ok (c, n)) :
    IsLeftOf (cs.drop n) cs := by
  cases cs with
  | nil => cases h
  | cons d cs =>
    simp only [readEscape] at h
    split at h
    case h_9 =>
      obtain ⟨⟨c', n'⟩, hread, heq⟩ := Except.map_eq_ok_iff.1 h
      obtain ⟨-, rfl⟩ := Prod.mk.inj heq
      exact (isLeftOf_of_readNumbered hread).cons (by decide)
    case h_10 => cases h
    all_goals
      obtain ⟨-, rfl⟩ := Prod.mk.inj (Except.ok.inj h)
      exact (IsLeftOf.refl cs).cons (by decide)

theorem isLeftOf_of_readString {s : List Char} (h : readString cs = .ok (s, rest)) :
    IsLeftOf rest cs := by
  fun_induction readString cs generalizing s rest with
  | case1 => cases h
  | case2 cs =>
    obtain ⟨-, rfl⟩ := Prod.mk.inj (Except.ok.inj h)
    exact (IsLeftOf.refl cs).cons (by decide)
  | case3 => cases h
  | case4 cs d n hescape hquote ih =>
    obtain ⟨⟨s', rest'⟩, hread, heq⟩ := Except.map_eq_ok_iff.1 h
    obtain ⟨-, rfl⟩ := Prod.mk.inj heq
    exact ((ih hread).trans (isLeftOf_of_readEscape hescape)).cons (by decide)
  | case5 => cases h
  | case6 c cs hquote hescape hprintable ih =>
    obtain ⟨⟨s', rest'⟩, hread, heq⟩ := Except.map_eq_ok_iff.1 h
    obtain ⟨-, rfl⟩ := Prod.mk.inj heq
    refine (ih hread).cons ?_
    rintro rfl
    exact hprintable (by decide)

theorem readDigits_eq_ok {digits : List Char} (h : readDigits cs = .ok (digits, rest)) :
    IsLeftOf rest cs ∧ ∃ c ∈ cs.head?, c.isDigit = true := by
  unfold readDigits at h
  split at h
  · cases h
  · rename_i hne
    obtain ⟨rfl, rfl⟩ := Prod.mk.inj (Except.ok.inj h)
    refine ⟨⟨_, fun hmem => absurd (List.mem_takeWhile_imp hmem) (by decide),
      List.takeWhile_append_dropWhile⟩, ?_⟩
    cases cs with
    | nil => exact absurd rfl hne
    | cons c cs =>
      refine ⟨c, rfl, ?_⟩
      by_contra hc
      exact hne (by rw [List.takeWhile_cons, if_neg hc])

theorem isLeftOf_of_readFraction {fraction : Option (List Char)}
    (h : readFraction cs = .ok (fraction, rest)) :
    IsLeftOf rest cs := by
  unfold readFraction at h
  split at h
  · obtain ⟨⟨digits, rest'⟩, hread, heq⟩ := Except.map_eq_ok_iff.1 h
    obtain ⟨-, rfl⟩ := Prod.mk.inj heq
    exact (readDigits_eq_ok hread).1.cons (by decide)
  · obtain ⟨-, rfl⟩ := Prod.mk.inj (Except.ok.inj h)
    exact .refl _

theorem isLeftOf_of_readExponent {shift : Option (Bool × List Char)}
    (h : readExponent cs = .ok (shift, rest)) :
    IsLeftOf rest cs := by
  unfold readExponent at h
  split at h
  · rename_i c cs
    split_ifs at h with he
    · obtain ⟨⟨digits, rest'⟩, hread, heq⟩ := Except.map_eq_ok_iff.1 h
      obtain ⟨-, rfl⟩ := Prod.mk.inj heq
      have hc : c ≠ '\n' := by
        rintro rfl
        exact absurd he (by decide)
      refine IsLeftOf.cons ?_ hc
      have hleft := (readDigits_eq_ok hread).1
      split at hleft
      · exact hleft.cons (by decide)
      · exact hleft.cons (by decide)
      · exact hleft
    · obtain ⟨-, rfl⟩ := Prod.mk.inj (Except.ok.inj h)
      exact .refl _
  · obtain ⟨-, rfl⟩ := Prod.mk.inj (Except.ok.inj h)
    exact .refl _

theorem readNumber_eq_ok {negative : Bool} {x : Number}
    (h : readNumber negative cs = .ok (x, rest)) :
    IsLeftOf rest cs ∧ ∃ c ∈ cs.head?, c.isDigit = true := by
  obtain ⟨⟨digits, rest₁⟩, hdigits, h⟩ := Except.bind_eq_ok_iff.1 h
  obtain ⟨hleft, hhead⟩ := readDigits_eq_ok hdigits
  refine ⟨?_, hhead⟩
  dsimp only at h
  split at h
  · cases h
  · obtain ⟨⟨fraction, rest₂⟩, hfraction, h⟩ := Except.bind_eq_ok_iff.1 h
    obtain ⟨⟨shift, rest₃⟩, hshift, h⟩ := Except.bind_eq_ok_iff.1 h
    have hrest : rest₃ = rest := by
      dsimp only at h
      split_ifs at h
      all_goals first
        | exact (Prod.mk.inj (Except.ok.inj h)).2
        | split at h
          · exact (Prod.mk.inj (Except.ok.inj h)).2
          · cases h
    rw [← hrest]
    exact ((isLeftOf_of_readExponent hshift).trans (isLeftOf_of_readFraction hfraction)).trans hleft

/-! ## Readers -/

namespace Reader

variable {α β : Type} {post : α → List Char → Prop}

/-- Where the reader succeeds on a text, it is as stated what it gives and what is left, and no line
of the text starts with two hyphens if none does of what is left. -/
def Gives (m : Reader α) (cs : List Char) (post : α → List Char → Prop) : Prop :=
  ∀ a rest, m cs = .ok (a, rest) → post a rest ∧ (Tidy rest → Tidy cs)

namespace Gives

theorem mono {m : Reader α} {post' : α → List Char → Prop} (h : m.Gives cs post)
    (hpost : ∀ a rest, post a rest → post' a rest) : m.Gives cs post' := fun a rest hm =>
  (h a rest hm).imp_left (hpost a rest)

theorem pure {a : α} (h : post a cs) : Gives (Pure.pure a) cs post := by
  intro b rest hm
  obtain ⟨rfl, rfl⟩ := Prod.mk.inj (Except.ok.inj hm)
  exact ⟨h, id⟩

theorem fail {e : ReadError} : Gives (α := α) (Reader.fail e) cs post := nofun

/-- What the first of two readers leaves, the second starts from. -/
theorem bind {m : Reader α} {f : α → Reader β} {post' : β → List Char → Prop} (hm : m.Gives cs post)
    (hf : ∀ a mid, post a mid → (f a).Gives mid post') : Gives (m >>= f) cs post' := by
  intro b rest h
  obtain ⟨⟨a, mid⟩, ha, hb⟩ :=
    Except.bind_eq_ok_iff.1 (show m cs >>= (fun r => f r.1 r.2) = _ from h)
  obtain ⟨hpost, htidy⟩ := hm a mid ha
  obtain ⟨hpost', htidy'⟩ := hf a mid hpost b rest hb
  exact ⟨hpost', htidy ∘ htidy'⟩

theorem seq {m : Reader α} {f : α → Reader β} {post' : β → List Char → Prop}
    (hm : m.Gives cs fun _ _ => True) (hf : ∀ a mid, (f a).Gives mid post') :
    Gives (m >>= f) cs post' :=
  hm.bind fun a mid _ => hf a mid

theorem peek : Reader.peek.Gives cs fun c rest => rest.head? = c := by
  intro c rest h
  obtain ⟨rfl, rfl⟩ := Prod.mk.inj (Except.ok.inj h)
  exact ⟨rfl, Tidy.of_dropWhile_isSpace⟩

theorem skip (hc : cs.head? = some c) (hne : c ≠ '-') : Reader.skip.Gives cs fun _ _ => True := by
  intro _ rest h
  obtain ⟨rest', rfl⟩ := List.head?_eq_some_iff.1 hc
  obtain ⟨-, rfl⟩ := Prod.mk.inj (Except.ok.inj h)
  exact ⟨trivial, fun htidy => Tidy.cons htidy hne⟩

theorem word {w : List Char} (hw : '-' ∉ w) : (Reader.word w).Gives cs fun _ _ => True := by
  intro _ rest h
  obtain ⟨rest', hread, heq⟩ := Except.map_eq_ok_iff.1 h
  obtain ⟨-, rfl⟩ := Prod.mk.inj heq
  rw [readWord_eq_ok hread]
  exact ⟨trivial, fun htidy => htidy.append hw⟩

theorem number : Reader.number.Gives cs fun _ _ => True := by
  intro x rest h
  refine ⟨trivial, fun htidy => ?_⟩
  unfold Reader.number at h
  split at h
  · rename_i cs
    obtain ⟨hleft, c, hc, hdigit⟩ := readNumber_eq_ok h
    refine tidy_iff.2 ⟨fun hstart => ?_, (hleft.isPlain htidy.isPlain).cons (by decide)⟩
    obtain ⟨rest', rfl⟩ := List.head?_eq_some_iff.1 hc
    obtain rfl := (List.cons_prefix_cons.1 (List.cons_prefix_cons.1 hstart).2).1
    exact absurd hdigit (by decide)
  · obtain ⟨hleft, c, hc, hdigit⟩ := readNumber_eq_ok h
    refine tidy_iff.2 ⟨fun hstart => ?_, hleft.isPlain htidy.isPlain⟩
    obtain ⟨rest', rfl⟩ := List.head?_eq_some_iff.1 hc
    obtain rfl := (List.cons_prefix_cons.1 hstart).1
    exact absurd hdigit (by decide)

/-- What stands in a string does not start a line, as the quote is in front of it. -/
theorem quoted {f : List Char → Reader α} (hc : cs.head? = some '"')
    (hf : ∀ s rest, (f s).Gives rest post) :
    Gives (do Reader.skip; f (← lift readString)) cs post := by
  obtain ⟨cs, rfl⟩ := List.head?_eq_some_iff.1 hc
  intro a rest h
  obtain ⟨⟨s, mid⟩, hs, ha⟩ :=
    Except.bind_eq_ok_iff.1 (show readString cs >>= (fun r => f r.1 r.2) = _ from h)
  obtain ⟨hpost, htidy⟩ := hf s mid a rest ha
  refine ⟨hpost, fun hrest => ?_⟩
  exact ((isLeftOf_of_readString hs).isPlain (htidy hrest).isPlain).tidy_cons (by decide)
    (by decide)

theorem found : Reader.found.Gives cs fun _ _ => True := by
  refine .bind peek fun c rest hrest => ?_
  split
  case h_1 => exact .fail
  case h_5 => exact .quoted hrest fun _ _ => .pure trivial
  case h_6 | h_7 => exact .pure trivial
  case h_8 =>
    split_ifs
    · exact .bind number fun _ _ _ => .pure trivial
    · exact .fail
  all_goals
    exact .bind (skip hrest (by decide)) fun _ _ _ => .bind (word (by decide)) fun _ _ _ =>
      .pure trivial

theorem refuse {wanted : String} : (Reader.refuse (α := α) wanted).Gives cs post :=
  .bind found fun _ _ _ => .fail

theorem text : Reader.text.Gives cs fun _ _ => True := by
  refine .bind peek fun c rest hrest => ?_
  split_ifs with hc
  · exact .quoted (hc ▸ hrest) fun _ _ => .pure trivial
  · exact .refuse

theorem parsed {parse : String → Except String α} :
    (Reader.parsed parse).Gives cs fun a _ => ∃ s, parse s = .ok a := by
  refine .bind text fun s rest _ => ?_
  split
  · rename_i a ha
    exact .pure ⟨s, ha⟩
  · exact .fail

theorem natural {wanted : String} {max : Nat} :
    (Reader.natural wanted max).Gives cs fun n _ => n ≤ max := by
  refine .bind found fun x rest _ => ?_
  split
  · split_ifs with hrange
    · simp only [Bool.and_eq_true, decide_eq_true_eq] at hrange
      exact .pure (by omega)
    · exact .fail
  · exact .fail

theorem optional {value : Reader α} (h : ∀ cs, value.Gives cs fun _ _ => True) :
    (Reader.optional value).Gives cs fun _ _ => True := by
  refine .bind peek fun c rest hrest => ?_
  split_ifs with hc
  · exact .bind (skip (hc ▸ hrest) (by decide)) fun _ _ _ => .bind (word (by decide)) fun _ _ _ =>
      .pure trivial
  · exact .bind (h rest) fun _ _ _ => .pure trivial

theorem hasElement {first : Bool} :
    (Reader.hasElement first).Gives cs fun more rest => more = false → rest.head? = some ']' := by
  refine .bind peek fun c rest hrest => ?_
  split
  · exact .fail
  · rename_i c
    split_ifs with hclose hfirst hcomma
    · exact .pure fun _ => hclose ▸ hrest
    · exact .pure nofun
    · refine .bind (skip (hcomma ▸ hrest) (by decide)) fun _ _ _ => .bind peek fun d rest hd => ?_
      split
      · exact .fail
      · split_ifs
        · exact .fail
        · exact .pure nofun
    · exact .fail

variable {member : α → Prop} {value : Reader α}

theorem elements (h : ∀ cs, value.Gives cs fun a _ => member a) (first : Bool) (limit : Nat) :
    (Reader.elements value first limit).Gives cs fun as _ => ∀ a ∈ as, member a := by
  induction limit generalizing cs first with
  | zero => exact .fail
  | succ limit ih =>
    refine .bind hasElement fun more rest hmore => ?_
    split_ifs with hnext
    · exact .bind (h rest) fun a _ ha => .bind (ih false) fun as _ has =>
        .pure (List.forall_mem_cons.2 ⟨ha, has⟩)
    · exact .bind (skip (hmore (by simpa using hnext)) (by decide)) fun _ _ _ => .pure nofun

theorem list (h : ∀ cs, value.Gives cs fun a _ => member a) :
    (Reader.list value).Gives cs fun as _ => ∀ a ∈ as, member a := by
  refine .bind peek fun c rest hrest => ?_
  split_ifs with hc
  · refine .bind (skip (hc ▸ hrest) (by decide)) fun _ mid _ => ?_
    exact .seq (fun _ _ h => ⟨trivial, (Prod.mk.inj (Except.ok.inj h)).2 ▸ id⟩) fun cs _ =>
      elements h true _
  · exact .refuse

end Gives

end Reader

/-! ## Records -/

open Reader (Gives)

def Field.Keeps {δ : Type} (f : Field δ) (inv : δ → Prop) : Prop :=
  ∀ draft cs, inv draft → (f.read draft).Gives cs fun draft _ => inv draft

theorem Field.Keeps.of_set {δ α : Type} {name : String} {value : Reader α} {member : α → Prop}
    {set : δ → α → δ} {inv : δ → Prop} (hvalue : ∀ cs, value.Gives cs fun a _ => member a)
    (hset : ∀ draft a, inv draft → member a → inv (set draft a)) :
    Field.Keeps ⟨name, fun draft => do return set draft (← value)⟩ inv := fun draft cs hdraft =>
  .bind (hvalue cs) fun a _ ha => .pure (hset draft a hdraft ha)

namespace Record

variable {δ α : Type} {r : Record δ α} {inv : δ → Prop}

theorem mem_of_takeField? {name : String} {fs gs : List (Field δ)} {f : Field δ}
    (h : takeField? name fs = some (f, gs)) : f ∈ fs ∧ ∀ g ∈ gs, g ∈ fs := by
  induction fs generalizing gs with
  | nil => cases h
  | cons g fs ih =>
    unfold takeField? at h
    split_ifs at h
    · obtain ⟨rfl, rfl⟩ := Prod.mk.inj (Option.some.inj h)
      exact ⟨by simp, fun g hg => by simp [hg]⟩
    · obtain ⟨⟨f', gs'⟩, htake, heq⟩ := Option.map_eq_some_iff.1 h
      obtain ⟨rfl, rfl⟩ := Prod.mk.inj heq
      obtain ⟨hf, hgs⟩ := ih htake
      exact ⟨by simp [hf], List.forall_mem_cons.2 ⟨by simp, fun g hg => by simp [hgs g hg]⟩⟩

theorem gives_hasMember {first : Bool} :
    (hasMember first).Gives cs fun more rest => more = false → rest.head? = some '\x7d' := by
  -- Whether a name follows is seen at the character in front of it.
  have hname : ∀ c cs, Gives (match c with
      | none => Reader.fail .truncated
      | some c => if c = '"' then pure true else Reader.fail .malformed) cs
      fun more rest => more = false → rest.head? = some '\x7d' := by
    intro c cs
    split
    · exact .fail
    · split_ifs
      · exact .pure nofun
      · exact .fail
  refine .bind .peek fun c rest hrest => ?_
  split_ifs with hclose hcomma hmore
  · exact .pure fun _ => hclose ▸ hrest
  · have hcomma : c = some ',' := by
      rw [Bool.and_eq_true, decide_eq_true_eq] at hcomma
      exact hcomma.2
    exact .bind (.skip (hcomma ▸ hrest) (by decide)) fun _ _ _ => .bind .peek fun c rest _ =>
      hname c rest
  · exact .seq .fail fun c rest => hname c rest
  · exact .seq (.pure trivial) fun c rest => hname c rest

theorem gives_colon : colon.Gives cs fun _ _ => True := by
  refine .bind .peek fun c rest hrest => ?_
  split
  · exact .fail
  · split_ifs with hc
    · exact .skip (hc ▸ hrest) (by decide)
    · exact .fail

theorem gives_members {unread : List (Field δ)} {draft : δ} {cs : List Char}
    (hfield : ∀ f ∈ unread, f.Keeps inv) {first : Bool} (hdraft : inv draft) :
    (r.members unread first draft).Gives cs fun draft _ => inv draft := by
  unfold members
  refine .bind gives_hasMember fun more rest hmore => ?_
  split_ifs with hnext
  · refine .bind .text fun name rest _ => ?_
    split
    · rename_i f unread' htake
      obtain ⟨hf, hunread⟩ := mem_of_takeField? htake
      have hshorter := length_of_takeField? htake
      exact .bind gives_colon fun _ rest _ =>
        .bind (hfield f hf draft rest hdraft) fun draft _ hdraft =>
        gives_members (fun g hg => hfield g (hunread g hg)) hdraft
    · exact .fail
  · exact .bind (.skip (hmore (by simpa using hnext)) (by decide)) fun _ _ _ => .pure hdraft
termination_by unread.length
decreasing_by exact hshorter

theorem gives_positions {fs : List (Field δ)} {draft : δ} (hfield : ∀ f ∈ fs, f.Keeps inv)
    {first : Bool} (hdraft : inv draft) :
    (positions first draft fs).Gives cs fun draft _ => inv draft := by
  induction fs generalizing first draft cs with
  | nil => exact .pure hdraft
  | cons f fs ih =>
    refine .bind .hasElement fun more rest _ => ?_
    split_ifs
    · exact .bind (hfield f (by simp) draft rest hdraft) fun draft _ hdraft =>
        ih (fun g hg => hfield g (by simp [hg])) hdraft
    · exact .pure hdraft

theorem gives_endOfList : endOfList.Gives cs fun _ _ => True := by
  refine .bind .peek fun c rest hrest => ?_
  split
  · exact .fail
  · split_ifs with hc
    · exact .skip (hc ▸ hrest) (by decide)
    · exact .fail

/-- What holds of the draft at the start, and goes on to hold whatever field is read, holds where it
is finished. -/
theorem gives_read (inv : δ → Prop) {post : α → Prop} (hstart : inv r.start)
    (hfield : ∀ f ∈ r.fields, f.Keeps inv)
    (hfinish : ∀ draft a, inv draft → r.finish draft = .ok a → post a) :
    r.read.Gives cs fun a _ => post a := by
  refine .bind .peek fun c rest hrest => ?_
  split
  · refine .bind (.skip hrest (by decide)) fun _ _ _ =>
      .bind (gives_members hfield hstart) fun draft _ hdraft => ?_
    split
    · rename_i a ha
      exact .pure (hfinish draft a hdraft ha)
    · exact .fail
  · refine .bind (.skip hrest (by decide)) fun _ _ _ =>
      .bind (gives_positions hfield hstart) fun draft _ hdraft => ?_
    split
    · rename_i a ha
      exact .bind gives_endOfList fun _ _ _ => .pure (hfinish draft a hdraft ha)
    · exact .fail
  · exact .refuse

end Record

/-- No line of a text that is read as one value starts with two hyphens, and the value is as its
kind asks. -/
theorem Reader.of_run {α : Type} {value : Reader α} {post : α → Prop} {s : String} {a : α}
    (hvalue : ∀ cs, value.Gives cs fun a _ => post a) (h : value.run s = .ok a) :
    post a ∧ Tidy s.toList := by
  obtain ⟨⟨a', rest⟩, ha, h⟩ := Except.bind_eq_ok_iff.1 h
  dsimp only at h
  split_ifs at h with hspace
  obtain rfl := Except.ok.inj h
  obtain ⟨hpost, htidy⟩ := hvalue _ _ _ ha
  refine ⟨hpost, htidy (Tidy.of_dropWhile_isSpace ?_)⟩
  rw [List.isEmpty_iff.1 hspace]
  exact fun hin => by simpa using hin.length_le

end Patchwork.Json
