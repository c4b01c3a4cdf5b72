import Mathlib.Data.List.TakeWhile
import Scriptwright.Proofs.JavaScript.Syntax

/-!
# A text has at most one reading

Two readings of the same characters agree if each of them ends before a token that
would not go on with it. Inside a reading this is so at every place: a part is followed
by a sign that closes what it stands in, by a comma, or by an operator that binds less
tightly. At the end of a text no token is left.
-/

namespace Scriptwright.JavaScript

/-- Whether a token goes on with a chain of operators of level `k` or higher. -/
def continues (k : Nat) : Lexical → Bool
  | .sign spelling =>
    spelling == "(" || spelling == "[" || spelling == "." ||
      (binarySign? spelling).any fun op => decide (k ≤ level op)
  | _ => false

/-- The characters do not go on with a chain. -/
def Closed (k : Nat) (rest : List Char) : Prop :=
  ∀ token after, next? rest = some (token, after) → continues k token = false

/-- Whether an expression may begin with the token. -/
def starts : Lexical → Bool
  | .sign spelling => ["(", "[", "\x7b", "`", "-", "!"].contains spelling
  | _ => true

/-- A sign that ends a list of expressions. -/
structure Closes (close : String) : Prop where
  not_starts : starts (.sign close) = false
  not_continues : continues 0 (.sign close) = false
  ne_comma : close ≠ ","

theorem closes_paren : Closes ")" := ⟨rfl, rfl, by decide⟩

theorem closes_bracket : Closes "]" := ⟨rfl, rfl, by decide⟩

theorem next?_injective {cs after after' : List Char} {token token' : Lexical}
    (h : next? cs = some (token, after)) (h' : next? cs = some (token', after')) :
    token = token' ∧ after = after' := by
  have hpair := Option.some.inj (h.symm.trans h')
  exact Prod.mk.inj hpair

theorem closed_of_next? {k : Nat} {rest after : List Char} {token : Lexical}
    (h : next? rest = some (token, after)) (hk : continues k token = false) : Closed k rest := by
  intro token' after' h'
  obtain ⟨rfl, -⟩ := next?_injective h h'
  exact hk

theorem continues_of_next? {k : Nat} {rest after : List Char} {token : Lexical}
    (hclosed : Closed k rest) (h : next? rest = some (token, after)) :
    continues k token = false :=
  hclosed token after h

theorem Closed.succ {k : Nat} {rest : List Char} (h : Closed k rest) : Closed (k + 1) rest := by
  intro token after hnext
  have hk := h token after hnext
  cases token with
  | name spelling => rfl
  | number value => rfl
  | sign spelling =>
    simp only [continues, Bool.or_eq_false_iff] at hk ⊢
    refine ⟨hk.1, ?_⟩
    cases hop : binarySign? spelling with
    | none => rfl
    | some op =>
      have hlevel := hk.2
      rw [hop] at hlevel
      simp only [Option.any_some, decide_eq_false_iff_not, Nat.not_le] at hlevel ⊢
      omega

theorem continues_operator {spelling : String} {op : BinaryOp}
    (h : binarySign? spelling = some op) {k : Nat} :
    continues k (.sign spelling) = decide (k ≤ level op) := by
  have hopen : spelling ≠ "(" := by
    rintro rfl
    cases h
  have hbracket : spelling ≠ "[" := by
    rintro rfl
    cases h
  have hdot : spelling ≠ "." := by
    rintro rfl
    cases h
  simp [continues, h, hopen, hbracket, hdot]

theorem ReadsPrimary.starts {cs rest : List Char} {t : Tree} (h : ReadsPrimary cs rest t) :
    ∃ token after, next? cs = some (token, after) ∧ JavaScript.starts token = true ∧
      ∀ spelling, token = .sign spelling → unarySign? spelling = none := by
  cases h with
  | name h => exact ⟨_, _, h, rfl, nofun⟩
  | number h => exact ⟨_, _, h, rfl, nofun⟩
  | group hopen => exact ⟨_, _, hopen, rfl, by rintro _ ⟨⟩; rfl⟩
  | array hopen => exact ⟨_, _, hopen, rfl, by rintro _ ⟨⟩; rfl⟩
  | object hopen => exact ⟨_, _, hopen, rfl, by rintro _ ⟨⟩; rfl⟩
  | template hopen => exact ⟨_, _, hopen, rfl, by rintro _ ⟨⟩; rfl⟩

theorem starts_of_unarySign {spelling : String} {op : UnaryOp}
    (h : unarySign? spelling = some op) : starts (.sign spelling) = true := by
  unfold unarySign? at h
  split at h
  · rfl
  · rfl
  · cases h

theorem ReadsUnary.starts {cs rest : List Char} {t : Tree} (h : ReadsUnary cs rest t) :
    ∃ token after, next? cs = some (token, after) ∧ JavaScript.starts token = true := by
  cases h with
  | sign hsign hop => exact ⟨_, _, hsign, starts_of_unarySign hop⟩
  | operand hhead =>
    obtain ⟨token, after, hnext, hstarts, -⟩ := hhead.starts
    exact ⟨token, after, hnext, hstarts⟩

theorem ReadsChain.starts : ∀ {k : Nat} {cs rest : List Char} {t : Tree}, ReadsChain k cs rest t →
    ∃ token after, next? cs = some (token, after) ∧ JavaScript.starts token = true
  | _, _, _, _, .operand h => h.starts
  | _, _, _, _, .chain _ hfirst _ => hfirst.starts

theorem ReadsLinks.closed {k : Nat} {left t : Tree} {cs rest : List Char}
    (h : ReadsLinks k left cs rest t) (hclosed : Closed k rest) : Closed (k + 1) cs := by
  cases h with
  | stop => exact hclosed.succ
  | link hsign hop hk =>
    refine closed_of_next? hsign ?_
    rw [continues_operator hop, hk]
    exact decide_eq_false (by omega)

theorem ReadsMoreItems.closed {close : String} {cs rest : List Char} {ts : List Tree}
    (h : ReadsMoreItems close cs rest ts) (hcloses : Closes close) : Closed 0 cs := by
  cases h with
  | none hnext => exact closed_of_next? hnext hcloses.not_continues
  | some hcomma => exact closed_of_next? hcomma rfl

theorem ReadsMoreFields.closed {cs rest : List Char} {fields : List (String × Tree)}
    (h : ReadsMoreFields cs rest fields) : Closed 0 cs := by
  cases h with
  | none hnext => exact closed_of_next? hnext rfl
  | some hcomma => exact closed_of_next? hcomma rfl

mutual

theorem ReadsChain.unique : ∀ {k : Nat} {cs rest rest' : List Char} {t t' : Tree},
    ReadsChain k cs rest t → ReadsChain k cs rest' t' → Closed k rest → Closed k rest' →
      t = t' ∧ rest = rest'
  | _, _, _, _, _, _, .operand h, .operand h', hclosed, hclosed' => h.unique h' hclosed hclosed'
  | _, _, _, _, _, _, .operand _, .chain hk _ _, _, _ => absurd hk (Nat.lt_irrefl 6)
  | _, _, _, _, _, _, .chain hk _ _, .operand _, _, _ => absurd hk (Nat.lt_irrefl 6)
  | _, _, _, _, _, _, .chain _ hfirst hlinks, .chain _ hfirst' hlinks', hclosed, hclosed' => by
    obtain ⟨rfl, rfl⟩ := hfirst.unique hfirst' (hlinks.closed hclosed) (hlinks'.closed hclosed')
    exact hlinks.unique hlinks' hclosed hclosed'
termination_by structural _ _ _ _ _ _ h => h

theorem ReadsLinks.unique : ∀ {k : Nat} {left t t' : Tree} {cs rest rest' : List Char},
    ReadsLinks k left cs rest t → ReadsLinks k left cs rest' t' → Closed k rest →
      Closed k rest' → t = t' ∧ rest = rest'
  | _, _, _, _, _, _, _, .stop, .stop, _, _ => ⟨rfl, rfl⟩
  | _, _, _, _, _, _, _, .stop, .link hsign hop hk _ _, hclosed, _ => by
    have hstop := continues_of_next? hclosed hsign
    rw [continues_operator hop, hk] at hstop
    exact absurd (Nat.le_refl _) (of_decide_eq_false hstop)
  | _, _, _, _, _, _, _, .link hsign hop hk _ _, .stop, _, hclosed => by
    have hstop := continues_of_next? hclosed hsign
    rw [continues_operator hop, hk] at hstop
    exact absurd (Nat.le_refl _) (of_decide_eq_false hstop)
  | _, _, _, _, _, _, _, .link hsign hop _ hright hlinks, .link hsign' hop' _ hright' hlinks',
      hclosed, hclosed' => by
    obtain ⟨hspelling, rfl⟩ := next?_injective hsign hsign'
    cases hspelling
    cases hop.symm.trans hop'
    obtain ⟨rfl, rfl⟩ := hright.unique hright' (hlinks.closed hclosed) (hlinks'.closed hclosed')
    exact hlinks.unique hlinks' hclosed hclosed'
termination_by structural _ _ _ _ _ _ _ h => h

theorem ReadsUnary.unique : ∀ {cs rest rest' : List Char} {t t' : Tree},
    ReadsUnary cs rest t → ReadsUnary cs rest' t' → Closed 6 rest → Closed 6 rest' →
      t = t' ∧ rest = rest'
  | _, _, _, _, _, .sign hsign hop h, .sign hsign' hop' h', hclosed, hclosed' => by
    obtain ⟨hspelling, rfl⟩ := next?_injective hsign hsign'
    cases hspelling
    cases hop.symm.trans hop'
    obtain ⟨rfl, rfl⟩ := h.unique h' hclosed hclosed'
    exact ⟨rfl, rfl⟩
  | _, _, _, _, _, .sign hsign hop _, .operand hhead _, _, _ => by
    obtain ⟨token, after, hnext, -, hunary⟩ := hhead.starts
    obtain ⟨rfl, -⟩ := next?_injective hsign hnext
    cases hop.symm.trans (hunary _ rfl)
  | _, _, _, _, _, .operand hhead _, .sign hsign hop _, _, _ => by
    obtain ⟨token, after, hnext, -, hunary⟩ := hhead.starts
    obtain ⟨rfl, -⟩ := next?_injective hsign hnext
    cases hop.symm.trans (hunary _ rfl)
  | _, _, _, _, _, .operand hhead htrailers, .operand hhead' htrailers', hclosed, hclosed' => by
    obtain ⟨rfl, rfl⟩ := hhead.unique hhead'
    exact htrailers.unique htrailers' hclosed hclosed'
termination_by structural _ _ _ _ _ h => h

theorem ReadsTrailers.unique : ∀ {base t t' : Tree} {cs rest rest' : List Char},
    ReadsTrailers base cs rest t → ReadsTrailers base cs rest' t' → Closed 6 rest →
      Closed 6 rest' → t = t' ∧ rest = rest'
  | _, _, _, _, _, _, .stop, h', hclosed, _ => by
    cases h' with
    | stop => exact ⟨rfl, rfl⟩
    | call hopen => cases continues_of_next? hclosed hopen
    | index hopen => cases continues_of_next? hclosed hopen
    | access hdot => cases continues_of_next? hclosed hdot
  | _, _, _, _, _, _, .call hopen harguments hmore, h', hclosed, hclosed' => by
    cases h' with
    | stop => cases continues_of_next? hclosed' hopen
    | call hopen' harguments' hmore' =>
      obtain ⟨-, rfl⟩ := next?_injective hopen hopen'
      obtain ⟨rfl, rfl⟩ := harguments.unique harguments' closes_paren
      exact hmore.unique hmore' hclosed hclosed'
    | index hopen' => exact absurd (next?_injective hopen hopen').1 (by decide)
    | access hdot => exact absurd (next?_injective hopen hdot).1 (by decide)
  | _, _, _, _, _, _, .index hopen hproperty hclose hmore, h', hclosed, hclosed' => by
    cases h' with
    | stop => cases continues_of_next? hclosed' hopen
    | call hopen' => exact absurd (next?_injective hopen hopen').1 (by decide)
    | index hopen' hproperty' hclose' hmore' =>
      obtain ⟨-, rfl⟩ := next?_injective hopen hopen'
      obtain ⟨rfl, rfl⟩ := hproperty.unique hproperty' (closed_of_next? hclose rfl)
        (closed_of_next? hclose' rfl)
      obtain ⟨-, rfl⟩ := next?_injective hclose hclose'
      exact hmore.unique hmore' hclosed hclosed'
    | access hdot => exact absurd (next?_injective hopen hdot).1 (by decide)
  | _, _, _, _, _, _, .access hdot hname hmore, h', hclosed, hclosed' => by
    cases h' with
    | stop => cases continues_of_next? hclosed' hdot
    | call hopen => exact absurd (next?_injective hdot hopen).1 (by decide)
    | index hopen => exact absurd (next?_injective hdot hopen).1 (by decide)
    | access hdot' hname' hmore' =>
      obtain ⟨-, rfl⟩ := next?_injective hdot hdot'
      obtain ⟨hspelling, rfl⟩ := next?_injective hname hname'
      cases hspelling
      exact hmore.unique hmore' hclosed hclosed'
termination_by structural _ _ _ _ _ _ h => h

theorem ReadsPrimary.unique : ∀ {cs rest rest' : List Char} {t t' : Tree},
    ReadsPrimary cs rest t → ReadsPrimary cs rest' t' → t = t' ∧ rest = rest'
  | _, _, _, _, _, .name h, h' => by
    cases h' with
    | name h' =>
      obtain ⟨hspelling, rfl⟩ := next?_injective h h'
      cases hspelling
      exact ⟨rfl, rfl⟩
    | _ => simp_all
  | _, _, _, _, _, .number h, h' => by
    cases h' with
    | number h' =>
      obtain ⟨hvalue, rfl⟩ := next?_injective h h'
      cases hvalue
      exact ⟨rfl, rfl⟩
    | _ => simp_all
  | _, _, _, _, _, .group hopen h hclose, h' => by
    cases h' with
    | group hopen' h' hclose' =>
      obtain ⟨-, rfl⟩ := next?_injective hopen hopen'
      obtain ⟨rfl, rfl⟩ := h.unique h' (closed_of_next? hclose rfl) (closed_of_next? hclose' rfl)
      exact ⟨rfl, (next?_injective hclose hclose').2⟩
    | _ => simp_all
  | _, _, _, _, _, .array hopen h, h' => by
    cases h' with
    | array hopen' h' =>
      obtain ⟨-, rfl⟩ := next?_injective hopen hopen'
      obtain ⟨rfl, rfl⟩ := h.unique h' closes_bracket
      exact ⟨rfl, rfl⟩
    | _ => simp_all
  | _, _, _, _, _, .object hopen h, h' => by
    cases h' with
    | object hopen' h' =>
      obtain ⟨-, rfl⟩ := next?_injective hopen hopen'
      obtain ⟨rfl, rfl⟩ := h.unique h'
      exact ⟨rfl, rfl⟩
    | _ => simp_all
  | _, _, _, _, _, .template hopen h, h' => by
    cases h' with
    | template hopen' h' =>
      obtain ⟨-, rfl⟩ := next?_injective hopen hopen'
      obtain ⟨rfl, rfl⟩ := h.unique h'
      exact ⟨rfl, rfl⟩
    | _ => simp_all
termination_by structural _ _ _ _ _ h => h

theorem ReadsItems.unique : ∀ {close : String} {cs rest rest' : List Char} {ts ts' : List Tree},
    ReadsItems close cs rest ts → ReadsItems close cs rest' ts' →
      Closes close → ts = ts' ∧ rest = rest'
  | _, _, _, _, _, _, .none hclose, h', hcloses => by
    cases h' with
    | none hclose' => exact ⟨rfl, (next?_injective hclose hclose').2⟩
    | some h =>
      obtain ⟨token, after, hnext, htoken⟩ := h.starts
      obtain ⟨rfl, -⟩ := next?_injective hclose hnext
      cases hcloses.not_starts.symm.trans htoken
  | _, _, _, _, _, _, .some h hmore, h', hcloses => by
    cases h' with
    | none hclose =>
      obtain ⟨token, after, hnext, htoken⟩ := h.starts
      obtain ⟨rfl, -⟩ := next?_injective hclose hnext
      cases hcloses.not_starts.symm.trans htoken
    | some h' hmore' =>
      obtain ⟨rfl, rfl⟩ := h.unique h' (hmore.closed hcloses) (hmore'.closed hcloses)
      obtain ⟨rfl, rfl⟩ := hmore.unique hmore' hcloses
      exact ⟨rfl, rfl⟩
termination_by structural _ _ _ _ _ _ h => h

theorem ReadsMoreItems.unique : ∀ {close : String} {cs rest rest' : List Char}
    {ts ts' : List Tree}, ReadsMoreItems close cs rest ts → ReadsMoreItems close cs rest' ts' →
      Closes close → ts = ts' ∧ rest = rest'
  | _, _, _, _, _, _, .none hclose, h', hcloses => by
    cases h' with
    | none hclose' => exact ⟨rfl, (next?_injective hclose hclose').2⟩
    | some hcomma =>
      cases (next?_injective hclose hcomma).1
      exact absurd rfl hcloses.ne_comma
  | _, _, _, _, _, _, .some hcomma h hmore, h', hcloses => by
    cases h' with
    | none hclose =>
      cases (next?_injective hclose hcomma).1
      exact absurd rfl hcloses.ne_comma
    | some hcomma' h' hmore' =>
      obtain ⟨-, rfl⟩ := next?_injective hcomma hcomma'
      obtain ⟨rfl, rfl⟩ := h.unique h' (hmore.closed hcloses) (hmore'.closed hcloses)
      obtain ⟨rfl, rfl⟩ := hmore.unique hmore' hcloses
      exact ⟨rfl, rfl⟩
termination_by structural _ _ _ _ _ _ h => h

theorem ReadsFields.unique : ∀ {cs rest rest' : List Char} {fields fields' : List (String × Tree)},
    ReadsFields cs rest fields → ReadsFields cs rest' fields' → fields = fields' ∧ rest = rest'
  | _, _, _, _, _, .none hclose, h' => by
    cases h' with
    | none hclose' => exact ⟨rfl, (next?_injective hclose hclose').2⟩
    | some h =>
      cases h with
      | field hname => cases (next?_injective hclose hname).1
  | _, _, _, _, _, .some h hmore, h' => by
    cases h' with
    | none hclose =>
      cases h with
      | field hname => cases (next?_injective hclose hname).1
    | some h' hmore' =>
      obtain ⟨rfl, rfl⟩ := h.unique h' hmore.closed hmore'.closed
      obtain ⟨rfl, rfl⟩ := hmore.unique hmore'
      exact ⟨rfl, rfl⟩
termination_by structural _ _ _ _ _ h => h

theorem ReadsMoreFields.unique : ∀ {cs rest rest' : List Char}
    {fields fields' : List (String × Tree)}, ReadsMoreFields cs rest fields →
      ReadsMoreFields cs rest' fields' → fields = fields' ∧ rest = rest'
  | _, _, _, _, _, .none hclose, h' => by
    cases h' with
    | none hclose' => exact ⟨rfl, (next?_injective hclose hclose').2⟩
    | some hcomma => exact absurd (next?_injective hclose hcomma).1 (by decide)
  | _, _, _, _, _, .some hcomma h hmore, h' => by
    cases h' with
    | none hclose => exact absurd (next?_injective hclose hcomma).1 (by decide)
    | some hcomma' h' hmore' =>
      obtain ⟨-, rfl⟩ := next?_injective hcomma hcomma'
      obtain ⟨rfl, rfl⟩ := h.unique h' hmore.closed hmore'.closed
      obtain ⟨rfl, rfl⟩ := hmore.unique hmore'
      exact ⟨rfl, rfl⟩
termination_by structural _ _ _ _ _ h => h

theorem ReadsField.unique : ∀ {cs rest rest' : List Char} {field field' : String × Tree},
    ReadsField cs rest field → ReadsField cs rest' field' → Closed 0 rest → Closed 0 rest' →
      field = field' ∧ rest = rest'
  | _, _, _, _, _, .field hname hcolon h, .field hname' hcolon' h', hclosed, hclosed' => by
    obtain ⟨hspelling, rfl⟩ := next?_injective hname hname'
    cases hspelling
    obtain ⟨-, rfl⟩ := next?_injective hcolon hcolon'
    obtain ⟨rfl, rfl⟩ := h.unique h' hclosed hclosed'
    exact ⟨rfl, rfl⟩
termination_by structural _ _ _ _ _ h => h

theorem ReadsParts.unique : ∀ {cs rest rest' : List Char} {parts parts' : List Part},
    ReadsParts cs rest parts → ReadsParts cs rest' parts' → parts = parts' ∧ rest = rest'
  | _, _, _, _, _, .close hclose, h' => by
    subst hclose
    cases h' with
    | close hclose => exact ⟨rfl, List.tail_eq_of_cons_eq hclose⟩
    | character hc => cases hc
    | code hopen => exact absurd hopen (by simp)
  | _, _, _, _, _, .character hc hmore, h' => by
    cases h' with
    | close hclose =>
      subst hclose
      cases hc
    | character hc' hmore' =>
      cases hc.symm.trans hc'
      obtain ⟨rfl, rfl⟩ := hmore.unique hmore'
      exact ⟨rfl, rfl⟩
    | code hopen =>
      subst hopen
      cases hc
  | _, _, _, _, _, .code hopen h hclose hmore, h' => by
    subst hopen
    cases h' with
    | close hclose => exact absurd hclose (by simp)
    | character hc => cases hc
    | code hopen' h' hclose' hmore' =>
      cases hopen'
      obtain ⟨rfl, rfl⟩ := h.unique h' (closed_of_next? hclose rfl) (closed_of_next? hclose' rfl)
      obtain ⟨-, rfl⟩ := next?_injective hclose hclose'
      obtain ⟨rfl, rfl⟩ := hmore.unique hmore'
      exact ⟨rfl, rfl⟩
termination_by structural _ _ _ _ _ h => h

end

theorem next?_of_blank {cs : List Char} (h : ∀ c ∈ cs, isBlank c = true) : next? cs = none := by
  unfold next?
  rw [List.dropWhile_eq_nil_iff.mpr h]

theorem reading_unique {text : String} {t t' : Tree} (h : Reading text t) (h' : Reading text t') :
    t = t' := by
  obtain ⟨rest, hreads, hblank⟩ := h
  obtain ⟨rest', hreads', hblank'⟩ := h'
  have hclosed : ∀ {rest : List Char}, (∀ c ∈ rest, isBlank c = true) → Closed 0 rest := by
    intro rest hblank token after hnext
    rw [next?_of_blank hblank] at hnext
    cases hnext
  exact (hreads.unique hreads' (hclosed hblank) (hclosed hblank')).1

end Scriptwright.JavaScript
