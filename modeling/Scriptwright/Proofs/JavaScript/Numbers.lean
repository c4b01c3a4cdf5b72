import Scriptwright.Proofs.Compile.Concatenation
import Scriptwright.Proofs.Grammar.Occurrence
import Scriptwright.Proofs.JavaScript.Pieces

/-!
# Numbers in emitted code

In the code of an expression a name or a number is followed by a sign, so JavaScript reads
the numbers that were written, with one exception. A member of a whole number is written with
a point right behind the digits, and JavaScript takes the point for a part of the number.
-/

namespace Scriptwright
open JavaScript

namespace JavaScript

/-- The code among pieces. -/
def codeOf (pieces : List Piece) : List Lexeme := pieces.filterMap Piece.lexeme?

/-- The code is read back as a source. JavaScript reads it back if and only if `free`. -/
structure Spaced (pieces : List Piece) (free : Prop) : Prop where
  valid : ∀ l ∈ codeOf pieces, l.Valid
  ends : (codeOf pieces).getLast? ≠ some (.sign '.')
  chain (strict : Bool) : (codeOf pieces).IsChain (Meets strict) ↔ (strict = true → free)

/-- A sign that is no part of a name or a number. -/
def isMark (c : Char) : Bool := !Scan.isNamePart c && c != '.'

theorem isMark_iff {c : Char} : isMark c = true ↔ Scan.isNamePart c = false ∧ c ≠ '.' := by
  simp [isMark]

theorem codeOf_append (first second : List Piece) :
    codeOf (first ++ second) = codeOf first ++ codeOf second := List.filterMap_append

theorem codeOf_marks (text : String) : codeOf (marks text) = text.toList.map .sign := by
  rw [codeOf, marks, List.filterMap_map]
  exact List.filterMap_eq_map_iff_forall_eq_some.mpr fun _ _ => rfl

theorem isChain_sign_cons {c : Char} (hc : c ≠ '.') {strict : Bool} {ls : List Lexeme} :
    (.sign c :: ls).IsChain (Meets strict) ↔ ls.IsChain (Meets strict) := by
  refine ⟨fun h => h.tail, fun h => List.isChain_cons.mpr ⟨fun b _ => ?_, h⟩⟩
  refine ⟨fun hword => absurd rfl (hword c), fun hpoint => ?_, fun _ _ hnumber => ?_⟩
  · exact absurd (Lexeme.sign.inj hpoint) hc
  · cases hnumber

theorem isChain_append_sign {c : Char} (hc : c ≠ '.') {strict : Bool} {first second : List Lexeme}
    (hends : first.getLast? ≠ some (.sign '.')) :
    (first ++ .sign c :: second).IsChain (Meets strict) ↔
      first.IsChain (Meets strict) ∧ second.IsChain (Meets strict) := by
  rw [List.isChain_append, isChain_sign_cons hc, and_congr_right_iff]
  intro _
  refine and_iff_left ?_
  rintro a ha b ⟨⟩
  refine ⟨fun _ => ⟨c, rfl⟩, fun hpoint => ?_, fun _ _ _ _ hsign => hc (Lexeme.sign.inj hsign)⟩
  rw [hpoint] at ha
  exact absurd ha hends

theorem spaced_nil : Spaced [] True where
  valid := List.forall_mem_nil _
  ends := by simp [codeOf]
  chain strict := iff_of_true .nil fun _ => trivial

section
variable {first second : List Piece} {P Q : Prop}

theorem Spaced.congr (h : Spaced first P) (hPQ : P ↔ Q) : Spaced first Q :=
  ⟨h.valid, h.ends, fun strict => (h.chain strict).trans (imp_congr_right fun _ => hPQ)⟩

theorem Spaced.text (h : Spaced first P) (content : String) : Spaced (.text content :: first) P :=
  ⟨h.valid, h.ends, h.chain⟩

/-- One sign between spaced pieces. -/
theorem Spaced.append_sign (hfirst : Spaced first P) (hsecond : Spaced second Q) {c : Char}
    (hc : isMark c = true) : Spaced (first ++ .code (.sign c) :: second) (P ∧ Q) := by
  obtain ⟨hpart, hpoint⟩ := isMark_iff.mp hc
  have hcode : codeOf (first ++ .code (.sign c) :: second) =
      codeOf first ++ .sign c :: codeOf second := codeOf_append _ _
  refine ⟨?_, ?_, fun strict => ?_⟩
  · rw [hcode]
    exact List.forall_mem_append.mpr ⟨hfirst.valid, List.forall_mem_cons.mpr ⟨hpart, hsecond.valid⟩⟩
  · rw [hcode, List.getLast?_append, List.getLast?_cons]
    cases hlast : (codeOf second).getLast? with
    | none => simpa using hpoint
    | some last => simpa [hlast] using hsecond.ends
  · rw [hcode, isChain_append_sign hpoint hfirst.ends, hfirst.chain, hsecond.chain, ← forall_and]

theorem Spaced.front (h : Spaced first P) {text : String} (htext : text.toList.all isMark = true) :
    Spaced (marks text ++ first) P := by
  unfold marks
  generalize text.toList = cs at htext
  induction cs with
  | nil => exact h
  | cons c cs ih =>
    rw [List.all_cons, Bool.and_eq_true] at htext
    exact (spaced_nil.append_sign (ih htext.2) htext.1).congr (iff_of_eq (true_and P))

theorem Spaced.join (hfirst : Spaced first P) (hsecond : Spaced second Q) {text : String}
    (hne : text.toList ≠ []) (htext : text.toList.all isMark = true) :
    Spaced (first ++ marks text ++ second) (P ∧ Q) := by
  obtain ⟨c, cs, hcs⟩ := List.exists_cons_of_ne_nil hne
  rw [hcs, List.all_cons, Bool.and_eq_true] at htext
  have hback : Spaced (marks (String.ofList cs) ++ second) Q :=
    hsecond.front (by rw [String.toList_ofList, htext.2])
  have hmarks : marks text = .code (.sign c) :: marks (String.ofList cs) := by
    rw [marks, hcs, marks, String.toList_ofList, List.map_cons]
  rw [hmarks, List.append_assoc, List.cons_append]
  exact hfirst.append_sign hback htext.1

theorem Spaced.back (h : Spaced first P) {text : String} (hne : text.toList ≠ [])
    (htext : text.toList.all isMark = true) : Spaced (first ++ marks text) P := by
  have hjoin := h.join spaced_nil hne htext
  rw [List.append_nil] at hjoin
  exact hjoin.congr (iff_of_eq (and_true P))

theorem Spaced.enclosedIf (h : Spaced first P) (wrap : Bool) :
    Spaced (JavaScript.enclosedIf wrap first) P := by
  cases wrap with
  | false => exact h
  | true => exact (h.front rfl).back (by decide) rfl

theorem spaced_lexeme {l : Lexeme} (h : l.Valid) (hword : ∀ c, l ≠ .sign c) :
    Spaced [.code l] True where
  valid := List.forall_mem_singleton.mpr h
  ends heq := hword '.' (Option.some.inj heq)
  chain _ := iff_of_true (List.isChain_singleton l) fun _ => trivial

/-- More pieces, each behind a comma. -/
theorem Spaced.append_commas {α : Type} {xs : List α} {pieces : α → List Piece} {free : α → Prop}
    (hfirst : Spaced first P) (h : ∀ x ∈ xs, Spaced (pieces x) (free x)) :
    Spaced (first ++ (xs.map pieces).flatMap (marks ", " ++ ·)) (P ∧ ∀ x ∈ xs, free x) := by
  induction xs generalizing first P with
  | nil =>
    rw [List.map_nil, List.flatMap_nil, List.append_nil]
    exact hfirst.congr (by simp)
  | cons x xs ih =>
    obtain ⟨hx, hxs⟩ := List.forall_mem_cons.mp h
    have hnext : Spaced (first ++ marks ", " ++ pieces x) (P ∧ free x) :=
      hfirst.join hx (by decide) rfl
    have hjoin := ih hnext hxs
    rw [List.map_cons, List.flatMap_cons, ← List.append_assoc, ← List.append_assoc]
    exact hjoin.congr (by rw [List.forall_mem_cons, and_assoc])

theorem spaced_commas {α : Type} {xs : List α} {pieces : α → List Piece} {free : α → Prop}
    (h : ∀ x ∈ xs, Spaced (pieces x) (free x)) :
    Spaced (commas (xs.map pieces)) (∀ x ∈ xs, free x) := by
  cases xs with
  | nil => exact spaced_nil.congr (by simp)
  | cons x xs =>
    obtain ⟨hx, hxs⟩ := List.forall_mem_cons.mp h
    exact (hx.append_commas hxs).congr List.forall_mem_cons.symm

/-- Whether the last of the code is a number without a point. -/
def EndsWhole (pieces : List Piece) : Prop :=
  ∃ spelling, (codeOf pieces).getLast? = some (.number spelling) ∧ '.' ∉ spelling

/-- A name behind a point. JavaScript reads it back only if no whole number is before it. -/
theorem Spaced.point (h : Spaced first P) {name : List Char} (hname : (Lexeme.name name).Valid) :
    Spaced (first ++ marks "." ++ [.code (.name name)]) (P ∧ ¬ EndsWhole first) := by
  have hcode : codeOf (first ++ marks "." ++ [.code (.name name)]) =
      codeOf first ++ [.sign '.', .name name] := by
    rw [List.append_assoc, codeOf_append]
    rfl
  refine ⟨?_, ?_, fun strict => ?_⟩
  · rw [hcode]
    refine List.forall_mem_append.mpr ⟨h.valid, List.forall_mem_cons.mpr ⟨rfl, ?_⟩⟩
    exact List.forall_mem_singleton.mpr hname
  · rw [hcode, List.getLast?_append]
    simp
  · have hlast : [Lexeme.sign '.', .name name].IsChain (Meets strict) := by
      refine List.isChain_pair.mpr ⟨fun hword => absurd rfl (hword '.'), fun _ => ⟨name, rfl⟩, ?_⟩
      intro _ _ hnumber
      cases hnumber
    have hmeet : (∀ a ∈ (codeOf first).getLast?, ∀ b ∈ [Lexeme.sign '.', .name name].head?,
        Meets strict a b) ↔ (strict = true → ¬ EndsWhole first) := by
      constructor
      · rintro hmeets hstrict ⟨spelling, hnumber, hwhole⟩
        exact (hmeets _ hnumber _ rfl).whole hstrict rfl hwhole rfl
      · rintro hwhole a ha b ⟨⟩
        refine ⟨fun _ => ⟨'.', rfl⟩, fun hpoint => ?_, fun hstrict spelling hnumber hdigits => ?_⟩
        · rw [hpoint] at ha
          exact absurd ha h.ends
        · rw [hnumber] at ha
          exact absurd ⟨spelling, ha, hdigits⟩ (hwhole hstrict)
    rw [hcode, List.isChain_append, h.chain, hmeet, and_iff_right hlast, ← forall_and]

end

theorem word_name {name : String} (h : Scan.IsName name) :
    word name = .code (.name name.toList) ∧ (Lexeme.name name.toList).Valid := by
  obtain ⟨c, cs, hname, hc, hcs⟩ := h
  have hdigit : c.isDigit = false := by
    by_contra hdigit
    rw [Scan.not_isNameStart_of_isDigit (Bool.of_not_eq_false hdigit)] at hc
    cases hc
  refine ⟨?_, c, cs, hname, hc, hcs⟩
  rw [word, hname, List.head?_cons, Option.any_some, hdigit]
  rfl

theorem spaced_name {name : String} (h : Scan.IsName name) : Spaced [word name] True := by
  obtain ⟨hword, hvalid⟩ := word_name h
  rw [hword]
  exact spaced_lexeme hvalid fun c => by simp

theorem not_endsWhole_name (pieces : List Piece) {name : String} (h : Scan.IsName name) :
    ¬ EndsWhole (pieces ++ [word name]) := by
  rintro ⟨spelling, hlast, -⟩
  rw [(word_name h).1, codeOf_append] at hlast
  have hname : codeOf [.code (.name name.toList)] = [.name name.toList] := rfl
  rw [hname, List.getLast?_concat] at hlast
  cases hlast

theorem not_endsWhole_marks (pieces : List Piece) {text : String} (hne : text.toList ≠ []) :
    ¬ EndsWhole (pieces ++ marks text) := by
  rintro ⟨spelling, hlast, -⟩
  rw [codeOf_append, codeOf_marks, List.getLast?_append, List.getLast?_map,
    List.getLast?_eq_some_getLast hne] at hlast
  cases hlast

theorem isDecimal_of_number {d : Char} {ds : List Char} (hd : d.isDigit = true)
    (h : (Scan.number d ds).2 = ds.length) : IsDecimal d ds := by
  obtain ⟨more, rest, rfl, hrest⟩ := Lexicon.exists_number ds
  rcases hrest with hrest | ⟨place, places, after, rfl, hafter⟩
  · rw [Scan.number_whole d more.property hrest, List.length_append] at h
    have hnil : rest = [] := List.eq_nil_of_length_eq_zero (by omega)
    rw [hnil, List.append_nil]
    exact .whole hd more.property
  · have hplaces : ∀ c ∈ place.val :: places.val, c.isDigit = true :=
      List.forall_mem_cons.mpr ⟨place.property, places.property⟩
    rw [← List.cons_append, Scan.number_fraction d more.property hplaces (by simp) hafter] at h
    have hnil : after = [] := by
      apply List.eq_nil_of_length_eq_zero
      simp only [List.length_append, List.length_cons] at h
      omega
    rw [hnil, List.append_nil]
    exact .fraction hd more.property hplaces (by simp)

/-- Infinity is a name, and every other double is a number. -/
theorem word_number {x : Binary64} (h : x.bits.toNat ≤ Binary64.infinityBits) :
    (x.javaScript = "Infinity") ∨
      ∃ d ds, x.javaScript.toList = d :: ds ∧ IsDecimal d ds ∧
        word x.javaScript = .code (.number (d :: ds)) := by
  rw [Binary64.javaScript_of_le h]
  split_ifs with hinfinite
  · exact .inl rfl
  · obtain ⟨d, ds, hshortest, hd, hread⟩ := Binary64.readAs_shortest h Scan.endsNumber_nil
    rw [List.append_nil] at hread
    refine .inr ⟨d, ds, ?_, isDecimal_of_number hd (congrArg Prod.snd hread), ?_⟩
    · rw [String.toList_ofList, hshortest]
    · rw [word, String.toList_ofList, hshortest, List.head?_cons, Option.any_some, hd]
      rfl

theorem spaced_number {x : Binary64} (h : x.bits.toNat ≤ Binary64.infinityBits) :
    Spaced [word x.javaScript] True := by
  rcases word_number h with hinfinity | ⟨d, ds, -, hdecimal, hword⟩
  · rw [hinfinity]
    exact spaced_name (by decide)
  · rw [hword]
    exact spaced_lexeme ⟨d, ds, rfl, hdecimal⟩ fun c => by simp

theorem all_isDigit_iff {d : Char} {ds : List Char} (h : IsDecimal d ds) :
    (d :: ds).all Char.isDigit = true ↔ '.' ∉ d :: ds := by
  constructor
  · intro hall hmem
    exact absurd (List.all_eq_true.mp hall '.' hmem) (by decide)
  · intro hwhole
    cases h with
    | whole hd hds => exact List.all_eq_true.mpr (List.forall_mem_cons.mpr ⟨hd, hds⟩)
    | fraction => simp at hwhole

end JavaScript

namespace Expr

/-- What a program ensures of a node. -/
def NodeLawful : Expr → Prop
  | number value _ => value.bits.toNat ≤ Binary64.infinityBits
  | identifier name _ => Scan.IsName name
  | member _ property false _ => ∃ name span, property = identifier name span
  | object fields _ => ∀ field ∈ fields, Scan.IsName field.1
  | _ => True

/-- Whether the expression is a number that is written without a point. -/
def isWhole : Expr → Bool
  | number value _ => value.javaScript.toList.all Char.isDigit
  | _ => false

/-- Whether the expression is a member of a whole number. -/
def accessesWhole : Expr → Bool
  | member base _ false _ => base.isWhole
  | _ => false

/-- The property holds everywhere inside. -/
def Everywhere (P : Expr → Prop) (e : Expr) : Prop := ∀ x, Within x e → P x

theorem everywhere_iff {P : Expr → Prop} {e : Expr} :
    e.Everywhere P ↔ P e ∧ ∀ child ∈ e.children, child.Everywhere P := by
  constructor
  · intro h
    exact ⟨h e .self, fun child hchild x hx => h x (.child hchild hx)⟩
  · rintro ⟨he, hchildren⟩ x hx
    cases hx with
    | self => exact he
    | child hmem hx => exact hchildren _ hmem x hx

theorem endsWhole_iff {base : Expr} (h : base.Everywhere NodeLawful) :
    EndsWhole (enclosedIf base.isOperation base.pieces) ↔ base.isWhole = true := by
  obtain ⟨hnode, hchildren⟩ := everywhere_iff.mp h
  cases base with
  | number value span =>
    have hpieces : enclosedIf (number value span).isOperation (pieces (number value span)) =
        [] ++ [word value.javaScript] := rfl
    rw [hpieces, isWhole]
    rcases word_number hnode with hinfinity | ⟨d, ds, htext, hdecimal, hword⟩
    · rw [hinfinity]
      exact iff_of_false (not_endsWhole_name [] (by decide)) (by decide)
    · rw [htext, all_isDigit_iff hdecimal, hword]
      constructor
      · rintro ⟨spelling, hlast, hwhole⟩
        cases hlast
        exact hwhole
      · intro hwhole
        exact ⟨d :: ds, rfl, hwhole⟩
  | identifier name span => exact iff_of_false (not_endsWhole_name [] hnode) Bool.false_ne_true
  | boolean value span =>
    exact iff_of_false (not_endsWhole_name [] (isName_boolean value)) Bool.false_ne_true
  | nil span => exact iff_of_false (not_endsWhole_name [] (by decide)) Bool.false_ne_true
  | member base property computed span =>
    cases computed with
    | true => exact iff_of_false (not_endsWhole_marks _ (by decide)) Bool.false_ne_true
    | false =>
      obtain ⟨name, nameSpan, rfl⟩ := hnode
      have hname : Scan.IsName name :=
        hchildren (identifier name nameSpan) (by simp [children]) _ .self
      exact iff_of_false (not_endsWhole_name _ hname) Bool.false_ne_true
  | binary | unary | text | template | call | array | object =>
    exact iff_of_false (not_endsWhole_marks _ (by decide)) Bool.false_ne_true

/-- No whole number in the expression has a member. -/
def Free (e : Expr) : Prop := e.Everywhere (accessesWhole · = false)

theorem free_iff {e : Expr} :
    e.Free ↔ e.accessesWhole = false ∧ ∀ child ∈ e.children, child.Free := everywhere_iff

theorem spaced_partsPieces {parts : List TemplatePart}
    (h : ∀ e ∈ parts.filterMap TemplatePart.code?, Spaced e.pieces e.Free) :
    Spaced (partsPieces parts) (∀ e ∈ parts.filterMap TemplatePart.code?, e.Free) := by
  induction parts with
  | nil => exact spaced_nil.congr (by simp)
  | cons part parts ih =>
    cases part with
    | text content => exact (ih h).text _
    | code e =>
      obtain ⟨he, hparts⟩ := List.forall_mem_cons.mp h
      have hcode : Spaced (partsPieces (.code e :: parts)) _ :=
        (he.front rfl).join (ih hparts) (by decide) rfl
      exact hcode.congr List.forall_mem_cons.symm

theorem isMark_operator (op : BinaryOp) :
    (" " ++ op.javaScript ++ " ").toList.all isMark = true := by
  cases op <;> rfl

/-- A member behind a point, which is no part of a number if the base does not end whole. -/
theorem spaced_access {base : Expr}
    (hbase : Spaced (enclosedIf base.isOperation base.pieces) base.Free)
    (hlawful : base.Everywhere NodeLawful) {name : String} (hname : Scan.IsName name)
    {nameSpan span : Span} :
    Spaced (member base (identifier name nameSpan) false span).pieces
      ((member base (identifier name nameSpan) false span).accessesWhole = false ∧
        ∀ child ∈ (member base (identifier name nameSpan) false span).children, child.Free) := by
  have hfree : (identifier name nameSpan).Free := free_iff.mpr ⟨rfl, List.forall_mem_nil _⟩
  obtain ⟨hword, hvalid⟩ := word_name hname
  rw [pieces, pieces, hword]
  refine (hbase.point hvalid).congr ?_
  rw [endsWhole_iff hlawful, accessesWhole, Bool.not_eq_true, and_comm]
  simp [children, hfree]

/-- The code of an expression is read back as a source, and by JavaScript if no whole number
has a member. -/
theorem spaced_pieces (e : Expr) (h : e.Everywhere NodeLawful) : Spaced e.pieces e.Free := by
  induction e using induction_children with
  | h e ih =>
    obtain ⟨hnode, hchildren⟩ := everywhere_iff.mp h
    have hspaced : ∀ child ∈ e.children, Spaced child.pieces child.Free :=
      fun child hchild => ih child hchild (hchildren child hchild)
    refine Spaced.congr ?_ free_iff.symm
    cases e with
    | number value span => exact (spaced_number hnode).congr (by simp [accessesWhole, children])
    | text content span =>
      have hcontent := spaced_nil.text (templateText content)
      exact ((hcontent.front rfl).back (by decide) rfl).congr (by simp [accessesWhole, children])
    | boolean value span =>
      exact (spaced_name (isName_boolean value)).congr (by simp [accessesWhole, children])
    | nil span => exact (spaced_name (by decide)).congr (by simp [accessesWhole, children])
    | identifier name span => exact (spaced_name hnode).congr (by simp [accessesWhole, children])
    | binary left op right span =>
      have hleft := (hspaced left (by simp [children])).enclosedIf left.isOperation
      have hright := (hspaced right (by simp [children])).enclosedIf right.isOperation
      exact (hleft.join hright (by simp) (isMark_operator op)).congr
        (by simp [accessesWhole, children])
    | unary op argument span =>
      have hargument := (hspaced argument (by simp [children])).enclosedIf argument.isOperation
      exact (hargument.front (by cases op <;> rfl)).congr (by simp [accessesWhole, children])
    | call callee arguments span =>
      have hcallee := (hspaced callee (by simp [children])).enclosedIf callee.isOperation
      have harguments := spaced_commas fun e he => hspaced e (List.mem_cons_of_mem callee he)
      rw [pieces, listPieces_eq]
      exact ((hcallee.join harguments (by decide) rfl).back (by decide) rfl).congr
        (by simp [accessesWhole, children])
    | array elements span =>
      have helements := spaced_commas hspaced
      rw [pieces, listPieces_eq]
      exact ((helements.front rfl).back (by decide) rfl).congr (by simp [accessesWhole, children])
    | object fields span =>
      have hfields : ∀ field ∈ fields,
          Spaced (word field.1 :: marks ": " ++ field.2.pieces) field.2.Free := by
        intro field hfield
        have hvalue := hspaced field.2 (List.mem_map_of_mem hfield)
        exact ((spaced_name (hnode field hfield)).join hvalue (by decide) rfl).congr (by simp)
      rw [pieces, fieldsPieces_eq]
      exact (((spaced_commas hfields).front rfl).back (by decide) rfl).congr
        (by rw [children, List.forall_mem_map]; exact (and_iff_right rfl).symm)
    | template parts span =>
      exact (((spaced_partsPieces hspaced).front rfl).back (by decide) rfl).congr
        (by simp [accessesWhole, children])
    | member base property computed span =>
      have hbase := (hspaced base (by simp [children])).enclosedIf base.isOperation
      cases computed with
      | true =>
        have hproperty := hspaced property (by simp [children])
        exact ((hbase.join hproperty (by decide) rfl).back (by decide) rfl).congr
          (by simp [accessesWhole, children])
      | false =>
        obtain ⟨name, nameSpan, rfl⟩ := hnode
        have hname : Scan.IsName name :=
          hchildren (identifier name nameSpan) (by simp [children]) _ .self
        exact spaced_access hbase (hchildren base (by simp [children])) hname

theorem everywhere_withSpan {e : Expr} (h : e.Everywhere NodeLawful) (span : Span) :
    (e.withSpan span).Everywhere NodeLawful := by
  rw [everywhere_iff] at h ⊢
  cases e with
  | member base property computed _ => cases computed <;> exact h
  | _ => exact h

end Expr

namespace Grammar
open Scriptwright.Expr

theorem nodeLawful_of_term? {t : Token} (ht : t.Ordinary) {e : Expr} (h : term? t = some e) :
    e.Everywhere NodeLawful := by
  unfold term? at h
  split at h
  case h_1 hkind =>
    cases h
    exact everywhere_iff.mpr ⟨ht.name hkind, List.forall_mem_nil _⟩
  case h_2 hvalue =>
    cases h
    exact everywhere_iff.mpr ⟨ht.number hvalue, List.forall_mem_nil _⟩
  case h_3 | h_4 | h_5 | h_6 =>
    cases h
    exact everywhere_iff.mpr ⟨trivial, List.forall_mem_nil _⟩
  case h_7 => cases h

theorem nodeLawful_inherited : Inherited Token.Ordinary (Everywhere NodeLawful) where
  term ht h := nodeLawful_of_term? ht h
  template {t} ht span := by
    refine everywhere_iff.mpr ⟨trivial, fun child hchild => ?_⟩
    obtain ⟨part, hpart, hcode⟩ := List.mem_filterMap.mp hchild
    obtain ⟨segment, hsegment, rfl⟩ := List.mem_map.mp hpart
    cases segment with
    | text content => cases hcode
    | name name span =>
      cases hcode
      exact everywhere_iff.mpr ⟨ht.divided.name hsegment, List.forall_mem_nil _⟩
  withSpan h span := everywhere_withSpan h span
  binary hleft hright _ _ :=
    everywhere_iff.mpr ⟨trivial, List.forall_mem_cons.mpr
      ⟨hleft, List.forall_mem_singleton.mpr hright⟩⟩
  unary h _ _ := everywhere_iff.mpr ⟨trivial, List.forall_mem_singleton.mpr h⟩
  call hcallee harguments _ :=
    everywhere_iff.mpr ⟨trivial, List.forall_mem_cons.mpr ⟨hcallee, harguments⟩⟩
  index hbase hproperty _ :=
    everywhere_iff.mpr ⟨trivial, List.forall_mem_cons.mpr
      ⟨hbase, List.forall_mem_singleton.mpr hproperty⟩⟩
  access {_ name} hbase hname _ := by
    have hlexeme : (Expr.identifier name.val.lexeme name.val.span).Everywhere NodeLawful :=
      everywhere_iff.mpr ⟨hname.name name.property, List.forall_mem_nil _⟩
    exact everywhere_iff.mpr ⟨⟨_, _, rfl⟩, List.forall_mem_cons.mpr
      ⟨hbase, List.forall_mem_singleton.mpr hlexeme⟩⟩
  array h _ := everywhere_iff.mpr ⟨trivial, h⟩
  object hnames h _ := by
    refine everywhere_iff.mpr ⟨fun field hfield => ?_, List.forall_mem_map.mpr h⟩
    obtain ⟨name, hname, heq⟩ := hnames field hfield
    rw [← heq]
    exact hname.name name.property

end Grammar

/-- The characters of the text of an expression that are not in the text of a template. -/
def Expr.code (e : Expr) : List Char := (codeOf e.pieces).flatMap Lexeme.characters

/-- The numbers in the code of a compiled expression are read in one way by a source. JavaScript
reads the same numbers exactly if no whole number in the expression has a member. -/
theorem numbers_of_compile {text path javaScript : String}
    (h : compile text path = .ok javaScript) :
    ∃ p, SourceFile.program ⟨0, path, text⟩ = .ok p ∧ p.javaScript = javaScript ∧
      ∀ e : Expr, e.OccursIn p →
        e.pieces.flatMap Piece.characters = e.javaScript.toList ∧
        ∃ written, lexemes sourceRule e.code = some written ∧
          ((∃ read, lexemes javaScriptRule e.code = some read ∧ numbers read = numbers written) ↔
            ∀ x : Expr, x.Within e → x.accessesWhole = false) := by
  obtain ⟨p, hprogram, hjavaScript⟩ := compile_eq_ok.mp h
  obtain ⟨tokens, hscan, hparse⟩ := SourceFile.program_eq_ok.mp hprogram
  refine ⟨p, hprogram, hjavaScript, fun e he => ⟨e.characters_pieces, ?_⟩⟩
  obtain ⟨root, hroot, hwithin⟩ := he
  have hlawful : root.Everywhere Expr.NodeLawful := by
    refine Grammar.nodeLawful_inherited.derived (fun t ht => ?_)
      (Grammar.derived_of_ofTokens hparse hroot)
    exact ordinary_of_scan hscan t (List.takeWhile_subset _ ht)
  have hspaced := e.spaced_pieces (hwithin.of_hereditary
    (fun _ hparent => (Expr.everywhere_iff.mp hparent).2) hlawful)
  have hchain := (hspaced.chain false).mpr fun hfalse => by cases hfalse
  refine ⟨codeOf e.pieces, lexemes_sourceRule hspaced.valid hchain, ?_⟩
  exact (lexemes_javaScriptRule_iff hspaced.valid hchain).trans
    ((hspaced.chain true).trans (forall_prop_of_true rfl))

/-- A number with a fraction may have members. -/
theorem numbers_of_fraction_member : ∃ (p : Program) (e : Expr),
    compile "func f = \x7b\x7d \x7b return 1.5.a - 2 \x7d" "a.nl" =
        .ok "function f() \x7b\n  return 1.5.a - 2;\n\x7d\n\n" ∧
      e.OccursIn p ∧ e.javaScript = "1.5.a - 2" ∧
      lexemes javaScriptRule e.code = some [.number "1.5".toList, .sign '.', .name ['a'],
        .sign ' ', .sign '-', .sign ' ', .number ['2']] ∧
      ∀ x : Expr, x.Within e → x.accessesWhole = false := by
  have hcompile : compile "func f = \x7b\x7d \x7b return 1.5.a - 2 \x7d" "a.nl" =
      .ok "function f() \x7b\n  return 1.5.a - 2;\n\x7d\n\n" := by
    decide +kernel
  have hrun : ∃ p ∈ (SourceFile.program
        ⟨0, "a.nl", "func f = \x7b\x7d \x7b return 1.5.a - 2 \x7d"⟩).toOption,
      ∃ e ∈ p.roots, e.javaScript = "1.5.a - 2" ∧
        lexemes sourceRule e.code = lexemes javaScriptRule e.code ∧
        lexemes javaScriptRule e.code = some [.number "1.5".toList, .sign '.', .name ['a'],
          .sign ' ', .sign '-', .sign ' ', .number ['2']] := by
    decide +kernel
  obtain ⟨p, hp, e, hroot, htext, hsame, hread⟩ := hrun
  obtain ⟨p', hprogram, -, hnumbers⟩ := numbers_of_compile hcompile
  cases (eq_ok_of_mem_toOption hp).symm.trans hprogram
  have hoccurs : e.OccursIn p := ⟨e, hroot, .self⟩
  obtain ⟨-, written, hwritten, hiff⟩ := hnumbers e hoccurs
  refine ⟨p, e, hcompile, hoccurs, htext, hread, hiff.mp ⟨written, ?_, rfl⟩⟩
  rw [← hsame, hwritten]

/-- The point behind a whole number leaves JavaScript with a name right behind a number. -/
theorem lexemes_whole_member : ∃ (p : Program) (e : Expr),
    SourceFile.program ⟨0, "test.nl", "func f = \x7b\x7d \x7b return 1.a \x7d"⟩ = .ok p ∧
      e.OccursIn p ∧ e.javaScript = "1.a" ∧
      lexemes sourceRule e.code = some [.number ['1'], .sign '.', .name ['a']] ∧
      lexemes javaScriptRule e.code = none := by
  have hrun : ∃ p ∈ (SourceFile.program
        ⟨0, "test.nl", "func f = \x7b\x7d \x7b return 1.a \x7d"⟩).toOption,
      ∃ e ∈ p.roots, e.javaScript = "1.a" ∧
        lexemes sourceRule e.code = some [.number ['1'], .sign '.', .name ['a']] ∧
        lexemes javaScriptRule e.code = none := by
    decide +kernel
  obtain ⟨p, hp, e, hroot, hlexemes⟩ := hrun
  exact ⟨p, e, eq_ok_of_mem_toOption hp, ⟨e, hroot, .self⟩, hlexemes⟩

end Scriptwright
