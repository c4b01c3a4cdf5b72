import Scriptwright.Proofs.Token.Cut
import Scriptwright.Proofs.Token.Extent

/-!
# Tokens in the order of their text

The tokens of a text stand one behind the other, and none of them is empty. A span is over
some tokens if it reaches from the start of the first to the end of the last. Two spans that
are over tokens of a list join to the span over all tokens from the first to the second.

The names in a template stand inside its token, in the same order.
-/

namespace Scriptwright

/-- The tokens stand in one file, one behind the other, and each takes some bytes. -/
structure Token.InOrder (file : Nat) (ts : List Token) : Prop where
  file : ∀ t ∈ ts, t.span.file = file
  nonempty : ∀ t ∈ ts, t.span.start < t.span.stop
  pairs : ts.Pairwise fun t u => t.span.stop ≤ u.span.start

/-- The span reaches from the start of the first token to the end of the last. -/
structure Span.Over (file : Nat) (ts : List Token) (s : Span) : Prop where
  file : s.file = file
  first : ∃ t ∈ ts.head?, s.start = t.span.start
  last : ∃ t ∈ ts.getLast?, s.stop = t.span.stop

namespace Token.InOrder
variable {file : Nat} {xs ys ts : List Token}

theorem sublist (h : InOrder file ts) (hsub : xs.Sublist ts) : InOrder file xs where
  file t ht := h.file t (hsub.subset ht)
  nonempty t ht := h.nonempty t (hsub.subset ht)
  pairs := h.pairs.sublist hsub

/-- What comes first ends before the rest begins. -/
theorem stop_le_start (h : InOrder file (xs ++ ys)) {t u : Token} (ht : t ∈ xs) (hu : u ∈ ys) :
    t.span.stop ≤ u.span.start :=
  (List.pairwise_append.mp h.pairs).2.2 t ht u hu

theorem head_start_le (h : InOrder file ts) {t u : Token} (ht : t ∈ ts.head?) (hu : u ∈ ts) :
    t.span.start ≤ u.span.start := by
  obtain ⟨rest, rfl⟩ := List.head?_eq_some_iff.mp ht
  rcases List.mem_cons.mp hu with rfl | hu
  · exact Nat.le_refl _
  · have hstop := (List.pairwise_cons.mp h.pairs).1 u hu
    have hnonempty := h.nonempty t List.mem_cons_self
    omega

theorem stop_le_last (h : InOrder file ts) {t u : Token} (ht : t ∈ ts) (hu : u ∈ ts.getLast?) :
    t.span.stop ≤ u.span.stop := by
  obtain ⟨before, rfl⟩ := List.getLast?_eq_some_iff.mp hu
  rcases List.mem_append.mp ht with ht | ht
  · have hstop := h.stop_le_start ht (List.mem_singleton.mpr rfl)
    have hnonempty := h.nonempty u (List.mem_append_right before (List.mem_singleton.mpr rfl))
    omega
  · rw [List.mem_singleton.mp ht]

/-- A token that starts before another one ends is that one or stands before it. -/
theorem index_le (h : InOrder file ts) {i j : Nat} {t u : Token} (ht : ts[i]? = some t)
    (hu : ts[j]? = some u) (hlt : t.span.start < u.span.stop) : i ≤ j := by
  by_contra hji
  obtain ⟨hi, rfl⟩ := List.getElem?_eq_some_iff.mp ht
  obtain ⟨hj, rfl⟩ := List.getElem?_eq_some_iff.mp hu
  have hstop := List.pairwise_iff_getElem.mp h.pairs j i hj hi (by omega)
  omega

/-- A span tells the place of its token. -/
theorem index_eq (h : InOrder file ts) {i j : Nat} {t u : Token} (ht : ts[i]? = some t)
    (hu : ts[j]? = some u) (hspan : t.span = u.span) : i = j := by
  have hnonempty := h.nonempty t (List.mem_of_getElem? ht)
  refine Nat.le_antisymm (h.index_le ht hu ?_) (h.index_le hu ht ?_)
  · rw [← hspan]
    exact hnonempty
  · rw [← hspan]
    exact hnonempty

end Token.InOrder

namespace Span.Over
open Token (InOrder)
variable {file : Nat} {xs ys ts : List Token} {a b s : Span}

theorem single {t : Token} (h : t.span.file = file) : t.span.Over file [t] :=
  ⟨h, ⟨t, rfl, rfl⟩, ⟨t, rfl, rfl⟩⟩

theorem start_le (h : s.Over file ts) (hts : InOrder file ts) {t : Token} (ht : t ∈ ts) :
    s.start ≤ t.span.start := by
  obtain ⟨first, hfirst, hstart⟩ := h.first
  rw [hstart]
  exact hts.head_start_le hfirst ht

theorem le_stop (h : s.Over file ts) (hts : InOrder file ts) {t : Token} (ht : t ∈ ts) :
    t.span.stop ≤ s.stop := by
  obtain ⟨last, hlast, hstop⟩ := h.last
  rw [hstop]
  exact hts.stop_le_last ht hlast

theorem nonempty (h : s.Over file ts) (hts : InOrder file ts) : s.start < s.stop := by
  obtain ⟨first, hfirst, hstart⟩ := h.first
  have hmem := List.mem_of_mem_head? hfirst
  have htoken := hts.nonempty first hmem
  have hstop := h.le_stop hts hmem
  omega

/-- A span over some of the tokens lies within the span over all. -/
theorem within (h : s.Over file ts) (hts : InOrder file ts) (ha : a.Over file xs)
    (hsub : xs.Sublist ts) :
    s.start ≤ a.start ∧ a.stop ≤ s.stop := by
  obtain ⟨first, hfirst, hstart⟩ := ha.first
  obtain ⟨last, hlast, hstop⟩ := ha.last
  rw [hstart, hstop]
  constructor
  · exact h.start_le hts (hsub.subset (List.mem_of_mem_head? hfirst))
  · exact h.le_stop hts (hsub.subset (List.mem_of_mem_getLast? hlast))

theorem stop_le_start (ha : a.Over file xs) (hb : b.Over file ys) (h : InOrder file (xs ++ ys)) :
    a.stop ≤ b.start := by
  obtain ⟨last, hlast, hstop⟩ := ha.last
  obtain ⟨first, hfirst, hstart⟩ := hb.first
  rw [hstop, hstart]
  exact h.stop_le_start (List.mem_of_mem_getLast? hlast) (List.mem_of_mem_head? hfirst)

/-- Spans over the first and over the last of some tokens join to the span over all. -/
theorem cover (ha : a.Over file xs) (hb : b.Over file ys) (zs : List Token)
    (h : InOrder file (xs ++ (zs ++ ys))) : (a.cover b).Over file (xs ++ (zs ++ ys)) := by
  have hxs : InOrder file xs := h.sublist (List.sublist_append_left xs _)
  have hys : InOrder file ys :=
    h.sublist ((List.sublist_append_right zs ys).trans (List.sublist_append_right xs _))
  have hbetween : a.stop ≤ b.start :=
    ha.stop_le_start hb (h.sublist ((List.sublist_append_right zs ys).append_left xs))
  have ha' := ha.nonempty hxs
  have hb' := hb.nonempty hys
  obtain ⟨first, hfirst, hstart⟩ := ha.first
  obtain ⟨last, hlast, hstop⟩ := hb.last
  refine ⟨ha.file, ⟨first, ?_, ?_⟩, ⟨last, ?_, ?_⟩⟩
  · rw [List.head?_append, hfirst]
    rfl
  · change min a.start b.start = _
    omega
  · rw [List.getLast?_append, List.getLast?_append, hlast]
    rfl
  · change max a.stop b.stop = _
    omega

/-- A span starts where the first of the tokens that it is over do. -/
theorem start_eq (h : s.Over file (xs ++ ys)) (ha : a.Over file xs) : s.start = a.start := by
  obtain ⟨t, ht, hstart⟩ := ha.first
  obtain ⟨u, hu, hstart'⟩ := h.first
  rw [List.head?_append, ht] at hu
  cases hu
  rw [hstart, hstart']

/-- A span stops where the last of the tokens that it is over do. -/
theorem stop_eq (h : s.Over file (xs ++ ys)) (hb : b.Over file ys) : s.stop = b.stop := by
  obtain ⟨t, ht, hstop⟩ := hb.last
  obtain ⟨u, hu, hstop'⟩ := h.last
  rw [List.getLast?_append, ht] at hu
  cases hu
  rw [hstop, hstop']

/-- The span from a token to the end of the last tokens behind it. -/
theorem cover_first {t : Token} (hs : s.Over file ys) (hys : ys <:+ ts)
    (h : InOrder file (t :: ts)) : (t.span.cover s).Over file (t :: ts) := by
  obtain ⟨zs, rfl⟩ := hys
  have ht : t.span.Over file [t] := .single (h.file t List.mem_cons_self)
  exact ht.cover hs zs h

end Span.Over

theorem Lexicon.exists_cut_of_scan {file : Nat} {text : String} {tokens : List Token}
    (h : scan file text = .ok tokens) :
    ∃ cut : Cut, cut.characters = text.toList ∧ cut.Longest ∧ tokens = cut.tokens file 0 := by
  obtain ⟨cut, hcharacters, hlongest⟩ := exists_cut h
  have hscan := cut.scan file 0 hlongest
  rw [hcharacters] at hscan
  exact ⟨cut, hcharacters, hlongest, Except.ok.inj (h.symm.trans hscan)⟩

/-- The tokens of a text are in order, up to the one that closes their list. -/
theorem exists_inOrder_of_scan {file : Nat} {text : String} {tokens : List Token}
    (h : scan file text = .ok tokens) :
    ∃ body stop, tokens = body ++ [.finish file stop] ∧ (∀ t ∈ body, t.kind ≠ .endOfText) ∧
      (∀ t ∈ body, t.span.stop ≤ stop) ∧ Token.InOrder file body := by
  obtain ⟨body, stop, rfl, hkinds, -⟩ := Scan.tokens_append h []
  obtain ⟨cut, -, hlongest, htokens⟩ := Lexicon.exists_cut_of_scan h
  obtain ⟨body', hbody', -, hspells, hpairs, -⟩ := cut.tokens_spell file hlongest []
  obtain ⟨rfl, hfinish⟩ := List.append_inj' (htokens.trans hbody') rfl
  rw [List.nil_append] at hspells hfinish
  have hstop : stop = byteLength cut.characters :=
    congrArg (fun ts => ((ts.map (·.span.stop)).head?).getD 0) hfinish
  refine ⟨body, stop, rfl, hkinds, ?_, ?_, ?_, hpairs⟩
  · intro t ht
    obtain ⟨before, after, htext, hspan, -⟩ := hspells t ht
    rw [hstop, htext, hspan, byteLength_append, byteLength_append]
    exact Nat.add_le_add_left (Nat.le_add_right _ _) _
  · intro t ht
    obtain ⟨before, after, -, hspan, -⟩ := hspells t ht
    rw [hspan]
  · intro t ht
    obtain ⟨before, after, -, -, hnonempty⟩ := hspells t ht
    exact hnonempty

/-- The bytes of the span are those of the name and lie inside of `low` and `high`. -/
structure Span.Selects (file low high : Nat) (text : List Char) (name : String) (s : Span) :
    Prop where
  spelled : ∃ before after : List Char, text = before ++ (name.toList ++ after) ∧
    s = ⟨file, byteLength before, byteLength before + byteLength name.toList⟩
  low : low < s.start
  nonempty : s.start < s.stop
  high : s.stop < high

/-- Names one behind the other, each where it is spelled. -/
structure Segment.Placed (file low high : Nat) (text : List Char) (segments : List Segment) :
    Prop where
  selects {name : String} {s : Span} (h : .name name s ∈ segments) :
    s.Selects file low high text name
  pairs : (segments.flatMap Segment.spans).Pairwise fun a b => a.stop ≤ b.start

/-- Segments without a name. -/
theorem Segment.placed_of_no_span {file low high : Nat} {text : List Char}
    {segments : List Segment} (h : segments.flatMap Segment.spans = []) :
    Placed file low high text segments where
  selects {name s} hmem := by
    have hspans := List.flatMap_eq_nil_iff.mp h _ hmem
    cases hspans
  pairs := by
    rw [h]
    exact .nil

namespace Lexicon
open Scan

theorem Name.byteLength_pos (n : Name) : 0 < byteLength n.characters := by
  have hfirst := n.first.val.utf8Size_pos
  rw [characters, byteLength_cons]
  omega

theorem Interpolation.byteLength_inner (i : Interpolation) :
    byteLength i.inner =
      byteLength i.before.val + byteLength i.name.characters + byteLength i.after.val + 1 := by
  simp only [inner, byteLength_append, byteLength_cons, byteLength_nil,
    show '}'.utf8Size = 1 from rfl]
  omega

/-- The segments of a template with `before` in front of it and `after` behind it. -/
theorem Template.placed (file : Nat) (t : Template) (before after : List Char) :
    Segment.Placed file (byteLength before) (byteLength before + byteLength t.characters)
      (before ++ (t.characters ++ after)) (t.segments file (byteLength before)) := by
  induction t generalizing before with
  | close content => exact Segment.placed_of_no_span (spans_textSegment content.val)
  | name content i more ih =>
    have hmore := ih (before ++ (content.val ++ '{' :: i.inner))
    have htext : before ++ (content.val ++ '{' :: i.inner) ++ (more.characters ++ after) =
        before ++ ((Template.name content i more).characters ++ after) := by
      simp only [characters, List.append_assoc, List.cons_append]
    have hlow : byteLength (before ++ (content.val ++ '{' :: i.inner)) =
        byteLength before + byteLength content.val + 1 + byteLength i.inner := by
      simp only [byteLength_append, byteLength_cons, show '{'.utf8Size = 1 from rfl]
      omega
    have hwidth : byteLength (Template.name content i more).characters =
        byteLength content.val + 1 + byteLength i.inner + byteLength more.characters := by
      simp only [characters, byteLength_append, byteLength_cons, show '{'.utf8Size = 1 from rfl]
      omega
    rw [htext, hlow] at hmore
    have hinner := i.byteLength_inner
    have hname := i.name.byteLength_pos
    constructor
    · intro name s h
      rcases List.mem_append.mp h with h | h
      · have hnone := List.flatMap_eq_nil_iff.mp (spans_textSegment content.val) _ h
        cases hnone
      · rcases List.mem_cons.mp h with h | h
        · cases h
          constructor
          · refine ⟨before ++ (content.val ++ '{' :: i.before.val),
              i.after.val ++ '}' :: (more.characters ++ after), ?_, ?_⟩
            · simp [characters, Interpolation.inner]
            · simp only [byteLength_append, byteLength_cons, String.toList_ofList,
                show '{'.utf8Size = 1 from rfl, Span.mk.injEq, true_and]
              omega
          all_goals dsimp only; omega
        · obtain ⟨hspelled, hlow', hnonempty, hhigh⟩ := hmore.selects h
          exact ⟨hspelled, by omega, hnonempty, by omega⟩
    · rw [segments, List.flatMap_append, spans_textSegment, List.nil_append, List.flatMap_cons]
      refine List.pairwise_cons.mpr ⟨?_, hmore.pairs⟩
      intro s hs
      obtain ⟨segment, hsegment, hs⟩ := List.mem_flatMap.mp hs
      cases segment with
      | text content => cases hs
      | name name span =>
        cases List.mem_singleton.mp hs
        have hbehind := (hmore.selects hsegment).low
        dsimp only
        omega

/-- The segments of a token that stands behind `before`. -/
theorem Lexeme.placed (file : Nat) (l : Lexeme) (before after : List Char) {t : Token}
    (hvalue : t.value = l.value file (byteLength before)) :
    Segment.Placed file (byteLength before) (byteLength before + byteLength l.characters)
      (before ++ (l.characters ++ after)) t.segments := by
  unfold Token.segments
  rw [hvalue]
  cases l with
  | template body =>
    have hbody := body.placed file (before ++ ['`']) after
    rw [show byteLength (before ++ ['`']) = byteLength before + 1 from byteLength_append _ _,
      List.append_assoc] at hbody
    have hwidth : byteLength (Lexeme.template body).characters = 1 + byteLength body.characters :=
      rfl
    dsimp only [value]
    split_ifs with hnil
    · exact Segment.placed_of_no_span rfl
    · refine ⟨?_, hbody.pairs⟩
      intro name s h
      obtain ⟨hspelled, hlow, hnonempty, hhigh⟩ := hbody.selects h
      exact ⟨hspelled, by omega, hnonempty, by omega⟩
  | sign | word | whole | decimal | text => exact Segment.placed_of_no_span rfl

theorem Cut.placed (file : Nat) (cut : Cut) (before : List Char) :
    ∀ t ∈ cut.tokens file (byteLength before), Segment.Placed file t.span.start t.span.stop
      (before ++ cut.characters) t.segments := by
  induction cut generalizing before with
  | done gap =>
    intro t ht
    cases List.mem_singleton.mp ht
    exact Segment.placed_of_no_span rfl
  | lexeme gap l more ih =>
    intro t ht
    have hmore := ih (before ++ gap.characters ++ l.characters)
    rw [byteLength_append, byteLength_append] at hmore
    have htext : before ++ gap.characters ++ l.characters ++ more.characters =
        before ++ (Cut.lexeme gap l more).characters := by
      simp only [characters, List.append_assoc]
    rcases List.mem_cons.mp ht with rfl | ht
    · have hl := l.placed file (before ++ gap.characters) more.characters
        (t := ⟨l.kind, String.ofList l.characters,
          l.value file (byteLength (before ++ gap.characters)), default⟩) rfl
      rw [byteLength_append, ← List.append_assoc, htext] at hl
      exact hl
    · rw [← htext]
      exact hmore t ht

end Lexicon

theorem placed_of_scan {file : Nat} {text : String} {tokens : List Token}
    (h : scan file text = .ok tokens) {t : Token} (ht : t ∈ tokens) :
    Segment.Placed file t.span.start t.span.stop text.toList t.segments := by
  obtain ⟨cut, hcharacters, -, rfl⟩ := Lexicon.exists_cut_of_scan h
  rw [← hcharacters]
  exact cut.placed file [] t ht

end Scriptwright
