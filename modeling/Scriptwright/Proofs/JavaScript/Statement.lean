import Scriptwright.Proofs.JavaScript.Unique
import Scriptwright.Proofs.Token.Scan

/-!
# The statements of emitted text

How the emitted text of a program is read, given how expressions are read. Blanks and line
breaks are left out, and the comment that names a type counts as a statement. No word is
reserved: a statement that begins with a name is an assignment if the next sign is `=`, so
that a variable may be called `function` or `while`.

A statement is known from what it begins with, and each part of it from the sign behind it.
Therefore there is one reading at most.
-/

namespace Scriptwright.JavaScript

structure Assign where
  target : Tree
  value : Tree

mutual

/-- What a statement says. Of a type only the name is left. -/
inductive Node where
  | function (name : String) (parameters : List String) (body : Body)
  | typeName (name : String)
  | assign (assignment : Assign)
  | branch (condition : Tree) (thenBody : Body) (elseBody : Option Body)
  | whileLoop (condition : Tree) (body : Body)
  | forLoop (initializer : Option Assign) (condition : Option Tree) (increment : Option Assign)
      (body : Body)

inductive Body where
  | mk (items : List Node) (result : Option Tree)

end

/-- What a statement begins with. An assignment is known from its sign, which stands
behind a name. -/
def heading? (cs : List Char) : Option Lexical :=
  match next? cs with
  | none => none
  | some (.name spelling, after) =>
    if (next? after).map (·.1) = some (.sign "=") then some (.sign "=") else some (.name spelling)
  | some (token, _) => some token

/-- `name = expression` -/
inductive ReadsAssign : List Char → List Char → Assign → Prop
  | assign {cs after inner rest spelling t} (hname : next? cs = some (.name spelling, after))
      (hsign : next? after = some (.sign "=", inner)) (h : ReadsChain 0 inner rest t) :
      ReadsAssign cs rest ⟨.name spelling, t⟩

/-- An expression in parentheses and the brace behind them. -/
inductive ReadsCondition : List Char → List Char → Tree → Prop
  | condition {cs after inner middle rest t} (hopen : next? cs = some (.sign "(", after))
      (h : ReadsChain 0 after inner t) (hclose : next? inner = some (.sign ")", middle))
      (hbrace : next? middle = some (.sign "\x7b", rest)) : ReadsCondition cs rest t

mutual

inductive ReadsNode : List Char → List Char → Node → Prop
  | function {cs afterWord afterName afterOpen afterNames after rest name parameters body}
      (hword : next? cs = some (.name "function", afterWord))
      (hname : next? afterWord = some (.name name, afterName))
      (hopen : next? afterName = some (.sign "(", afterOpen))
      (hparameters : ReadsItems ")" afterOpen afterNames (parameters.map Tree.name))
      (hbrace : next? afterNames = some (.sign "\x7b", after))
      (hbody : ReadsBody after rest body) : ReadsNode cs rest (.function name parameters body)
  | typeName {cs after rest name} (hslash : next? cs = some (.sign "/", after))
      (hcomment : after = "/ Type: ".toList ++ (name.toList ++ '\n' :: rest))
      (hname : '\n' ∉ name.toList) : ReadsNode cs rest (.typeName name)
  | assign {cs after rest a} (h : ReadsAssign cs after a)
      (hend : next? after = some (.sign ";", rest)) : ReadsNode cs rest (.assign a)
  | branch {cs afterWord after rest condition body}
      (hword : next? cs = some (.name "if", afterWord))
      (hcondition : ReadsCondition afterWord after condition) (hbody : ReadsBody after rest body)
      (helse : heading? rest ≠ some (.name "else")) :
      ReadsNode cs rest (.branch condition body none)
  | branchElse {cs afterWord after middle afterElse inner rest condition thenBody elseBody}
      (hword : next? cs = some (.name "if", afterWord))
      (hcondition : ReadsCondition afterWord after condition)
      (hthen : ReadsBody after middle thenBody)
      (helse : next? middle = some (.name "else", afterElse))
      (hbrace : next? afterElse = some (.sign "\x7b", inner))
      (hbody : ReadsBody inner rest elseBody) :
      ReadsNode cs rest (.branch condition thenBody (some elseBody))
  | whileLoop {cs afterWord after rest condition body}
      (hword : next? cs = some (.name "while", afterWord))
      (hcondition : ReadsCondition afterWord after condition) (hbody : ReadsBody after rest body) :
      ReadsNode cs rest (.whileLoop condition body)
  | forLoop {cs afterWord afterOpen first afterFirst second afterSecond third afterThird after rest
        initializer condition increment body}
      (hword : next? cs = some (.name "for", afterWord))
      (hopen : next? afterWord = some (.sign "(", afterOpen))
      (hinitializer : ReadsAssign afterOpen first initializer)
      (hfirst : next? first = some (.sign ";", afterFirst))
      (hcondition : ReadsChain 0 afterFirst second condition)
      (hsecond : next? second = some (.sign ";", afterSecond))
      (hincrement : ReadsAssign afterSecond third increment)
      (hclose : next? third = some (.sign ")", afterThird))
      (hbrace : next? afterThird = some (.sign "\x7b", after)) (hbody : ReadsBody after rest body) :
      ReadsNode cs rest (.forLoop (some initializer) (some condition) (some increment) body)

/-- Statements and the returned expression up to the closing brace. -/
inductive ReadsBody : List Char → List Char → Body → Prop
  | close {cs rest} (hclose : next? cs = some (.sign "\x7d", rest)) :
      ReadsBody cs rest (.mk [] none)
  | result {cs after middle inner rest t} (hword : next? cs = some (.name "return", after))
      (h : ReadsChain 0 after middle t) (hend : next? middle = some (.sign ";", inner))
      (hclose : next? inner = some (.sign "\x7d", rest)) : ReadsBody cs rest (.mk [] (some t))
  | item {cs middle rest node nodes result} (h : ReadsNode cs middle node)
      (hmore : ReadsBody middle rest (.mk nodes result)) :
      ReadsBody cs rest (.mk (node :: nodes) result)

end

def Node.heading : Node → Lexical
  | .function .. => .name "function"
  | .typeName _ => .sign "/"
  | .assign _ => .sign "="
  | .branch .. => .name "if"
  | .whileLoop .. => .name "while"
  | .forLoop .. => .name "for"

def Body.heading : Body → Lexical
  | .mk [] none => .sign "\x7d"
  | .mk [] (some _) => .name "return"
  | .mk (node :: _) _ => node.heading

theorem heading?_sign {cs after : List Char} {spelling : String}
    (h : next? cs = some (.sign spelling, after)) : heading? cs = some (.sign spelling) := by
  simp only [heading?, h]

theorem heading?_assign {cs after inner : List Char} {spelling : String}
    (h : next? cs = some (.name spelling, after)) (hsign : next? after = some (.sign "=", inner)) :
    heading? cs = some (.sign "=") := by
  simp [heading?, h, hsign]

theorem heading?_name {cs after inner : List Char} {spelling : String} {token : Lexical}
    (h : next? cs = some (.name spelling, after)) (hnext : next? after = some (token, inner))
    (htoken : token ≠ .sign "=") : heading? cs = some (.name spelling) := by
  simp [heading?, h, hnext, htoken]

theorem ReadsNode.heading {cs rest : List Char} {node : Node} (h : ReadsNode cs rest node) :
    heading? cs = some node.heading := by
  cases h with
  | function hword hname => exact heading?_name hword hname (by simp)
  | typeName hslash => exact heading?_sign hslash
  | assign h =>
    cases h with
    | assign hname hsign => exact heading?_assign hname hsign
  | branch hword hcondition =>
    cases hcondition with
    | condition hopen => exact heading?_name hword hopen (by decide)
  | branchElse hword hcondition =>
    cases hcondition with
    | condition hopen => exact heading?_name hword hopen (by decide)
  | whileLoop hword hcondition =>
    cases hcondition with
    | condition hopen => exact heading?_name hword hopen (by decide)
  | forLoop hword hopen => exact heading?_name hword hopen (by decide)

theorem ReadsBody.heading {cs rest : List Char} {body : Body} (h : ReadsBody cs rest body) :
    heading? cs = some body.heading := by
  cases h with
  | close hclose => exact heading?_sign hclose
  | result hword h =>
    obtain ⟨token, after, hnext, hstarts⟩ := h.starts
    refine heading?_name hword hnext ?_
    rintro rfl
    cases hstarts
  | item h => exact h.heading

/-- Neither the end of a body nor an `else` begins a statement. -/
theorem Node.heading_ne (node : Node) :
    node.heading ≠ .sign "\x7d" ∧ node.heading ≠ .name "return" ∧ node.heading ≠ .name "else" := by
  cases node <;> simp [Node.heading]

theorem Body.heading_ne_else (body : Body) : body.heading ≠ .name "else" := by
  obtain ⟨items, result⟩ := body
  cases items with
  | nil => cases result <;> simp [Body.heading]
  | cons node nodes => exact node.heading_ne.2.2

/-- An `else` belongs to what is before it. -/
theorem ReadsBody.not_else {cs rest : List Char} {body : Body} (h : ReadsBody cs rest body) :
    heading? cs ≠ some (.name "else") := by
  rw [h.heading]
  exact fun heq => body.heading_ne_else (Option.some.inj heq)

theorem ReadsNode.heading_eq {cs rest rest' : List Char} {node node' : Node}
    (h : ReadsNode cs rest node) (h' : ReadsNode cs rest' node') : node.heading = node'.heading :=
  Option.some.inj (h.heading.symm.trans h'.heading)

theorem ReadsBody.heading_eq {cs rest rest' : List Char} {body body' : Body}
    (h : ReadsBody cs rest body) (h' : ReadsBody cs rest' body') : body.heading = body'.heading :=
  Option.some.inj (h.heading.symm.trans h'.heading)

theorem ReadsAssign.unique {cs rest rest' : List Char} {a a' : Assign} (h : ReadsAssign cs rest a)
    (h' : ReadsAssign cs rest' a') (hclosed : Closed 0 rest) (hclosed' : Closed 0 rest') :
    a = a' ∧ rest = rest' := by
  cases h with
  | assign hname hsign h =>
    cases h' with
    | assign hname' hsign' h' =>
      obtain ⟨hspelling, rfl⟩ := next?_injective hname hname'
      cases hspelling
      obtain ⟨-, rfl⟩ := next?_injective hsign hsign'
      obtain ⟨rfl, rfl⟩ := h.unique h' hclosed hclosed'
      exact ⟨rfl, rfl⟩

theorem ReadsCondition.unique {cs rest rest' : List Char} {t t' : Tree}
    (h : ReadsCondition cs rest t) (h' : ReadsCondition cs rest' t') : t = t' ∧ rest = rest' := by
  cases h with
  | condition hopen h hclose hbrace =>
    cases h' with
    | condition hopen' h' hclose' hbrace' =>
      obtain ⟨-, rfl⟩ := next?_injective hopen hopen'
      obtain ⟨rfl, rfl⟩ := h.unique h' (closed_of_next? hclose rfl) (closed_of_next? hclose' rfl)
      obtain ⟨-, rfl⟩ := next?_injective hclose hclose'
      exact ⟨rfl, (next?_injective hbrace hbrace').2⟩

theorem comment_unique {name name' : String} {rest rest' : List Char} (hname : '\n' ∉ name.toList)
    (hname' : '\n' ∉ name'.toList)
    (h : name.toList ++ '\n' :: rest = name'.toList ++ '\n' :: rest') :
    name = name' ∧ rest = rest' := by
  have hstops (cs : List Char) : Scan.Stops (· != '\n') ('\n' :: cs) := by
    rintro _ ⟨⟩
    rfl
  have hall {cs : List Char} (hcs : '\n' ∉ cs) : ∀ c ∈ cs, (c != '\n') = true := by
    intro c hc
    rw [bne_iff_ne]
    rintro rfl
    exact hcs hc
  have hlist : name.toList = name'.toList := by
    rw [← Scan.takeWhile_of_stops (hall hname) (hstops rest), h,
      Scan.takeWhile_of_stops (hall hname') (hstops rest')]
  rw [hlist] at h
  exact ⟨String.toList_inj.mp hlist, (List.cons.inj (List.append_cancel_left h)).2⟩

mutual

theorem ReadsNode.unique : ∀ {cs rest rest' : List Char} {node node' : Node},
    ReadsNode cs rest node → ReadsNode cs rest' node' → node = node' ∧ rest = rest'
  | _, _, _, _, _, h@(.function hword hname hopen hparameters hbrace hbody), h' => by
    have hheading := h.heading_eq h'
    cases h' with
    | function hword' hname' hopen' hparameters' hbrace' hbody' =>
      obtain ⟨-, rfl⟩ := next?_injective hword hword'
      obtain ⟨hspelling, rfl⟩ := next?_injective hname hname'
      cases hspelling
      obtain ⟨-, rfl⟩ := next?_injective hopen hopen'
      obtain ⟨hnames, rfl⟩ := hparameters.unique hparameters' closes_paren
      obtain ⟨-, rfl⟩ := next?_injective hbrace hbrace'
      obtain ⟨rfl, rfl⟩ := hbody.unique hbody'
      have hparameters := (List.map_inj_right fun _ _ => Tree.name.inj).mp hnames
      exact ⟨by rw [hparameters], rfl⟩
    | typeName | assign | branch | branchElse | whileLoop | forLoop =>
      simp [Node.heading] at hheading
  | _, _, _, _, _, h@(.typeName hslash hcomment hname), h' => by
    have hheading := h.heading_eq h'
    cases h' with
    | typeName hslash' hcomment' hname' =>
      obtain ⟨-, rfl⟩ := next?_injective hslash hslash'
      obtain ⟨rfl, rfl⟩ := comment_unique hname hname'
        (List.append_cancel_left (hcomment.symm.trans hcomment'))
      exact ⟨rfl, rfl⟩
    | function | assign | branch | branchElse | whileLoop | forLoop =>
      simp [Node.heading] at hheading
  | _, _, _, _, _, h@(.assign ha hend), h' => by
    have hheading := h.heading_eq h'
    cases h' with
    | assign ha' hend' =>
      obtain ⟨rfl, rfl⟩ := ha.unique ha' (closed_of_next? hend rfl) (closed_of_next? hend' rfl)
      exact ⟨rfl, (next?_injective hend hend').2⟩
    | function | typeName | branch | branchElse | whileLoop | forLoop =>
      simp [Node.heading] at hheading
  | _, _, _, _, _, h@(.branch hword hcondition hbody helse), h' => by
    have hheading := h.heading_eq h'
    cases h' with
    | branch hword' hcondition' hbody' =>
      obtain ⟨-, rfl⟩ := next?_injective hword hword'
      obtain ⟨rfl, rfl⟩ := hcondition.unique hcondition'
      obtain ⟨rfl, rfl⟩ := hbody.unique hbody'
      exact ⟨rfl, rfl⟩
    | branchElse hword' hcondition' hthen' helse' hbrace' =>
      obtain ⟨-, rfl⟩ := next?_injective hword hword'
      obtain ⟨rfl, rfl⟩ := hcondition.unique hcondition'
      obtain ⟨rfl, rfl⟩ := hbody.unique hthen'
      exact absurd (heading?_name helse' hbrace' (by decide)) helse
    | function | typeName | assign | whileLoop | forLoop =>
      simp [Node.heading] at hheading
  | _, _, _, _, _, h@(.branchElse hword hcondition hthen helse hbrace hbody), h' => by
    have hheading := h.heading_eq h'
    cases h' with
    | branch hword' hcondition' hbody' helse' =>
      obtain ⟨-, rfl⟩ := next?_injective hword hword'
      obtain ⟨rfl, rfl⟩ := hcondition.unique hcondition'
      obtain ⟨rfl, rfl⟩ := hthen.unique hbody'
      exact absurd (heading?_name helse hbrace (by decide)) helse'
    | branchElse hword' hcondition' hthen' helse' hbrace' hbody' =>
      obtain ⟨-, rfl⟩ := next?_injective hword hword'
      obtain ⟨rfl, rfl⟩ := hcondition.unique hcondition'
      obtain ⟨rfl, rfl⟩ := hthen.unique hthen'
      obtain ⟨-, rfl⟩ := next?_injective helse helse'
      obtain ⟨-, rfl⟩ := next?_injective hbrace hbrace'
      obtain ⟨rfl, rfl⟩ := hbody.unique hbody'
      exact ⟨rfl, rfl⟩
    | function | typeName | assign | whileLoop | forLoop =>
      simp [Node.heading] at hheading
  | _, _, _, _, _, h@(.whileLoop hword hcondition hbody), h' => by
    have hheading := h.heading_eq h'
    cases h' with
    | whileLoop hword' hcondition' hbody' =>
      obtain ⟨-, rfl⟩ := next?_injective hword hword'
      obtain ⟨rfl, rfl⟩ := hcondition.unique hcondition'
      obtain ⟨rfl, rfl⟩ := hbody.unique hbody'
      exact ⟨rfl, rfl⟩
    | function | typeName | assign | branch | branchElse | forLoop =>
      simp [Node.heading] at hheading
  | _, _, _, _, _, h@(.forLoop hword hopen hinitializer hfirst hcondition hsecond hincrement
      hclose hbrace hbody), h' => by
    have hheading := h.heading_eq h'
    cases h' with
    | forLoop hword' hopen' hinitializer' hfirst' hcondition' hsecond' hincrement' hclose' hbrace'
        hbody' =>
      obtain ⟨-, rfl⟩ := next?_injective hword hword'
      obtain ⟨-, rfl⟩ := next?_injective hopen hopen'
      obtain ⟨rfl, rfl⟩ := hinitializer.unique hinitializer' (closed_of_next? hfirst rfl)
        (closed_of_next? hfirst' rfl)
      obtain ⟨-, rfl⟩ := next?_injective hfirst hfirst'
      obtain ⟨rfl, rfl⟩ := hcondition.unique hcondition' (closed_of_next? hsecond rfl)
        (closed_of_next? hsecond' rfl)
      obtain ⟨-, rfl⟩ := next?_injective hsecond hsecond'
      obtain ⟨rfl, rfl⟩ := hincrement.unique hincrement' (closed_of_next? hclose rfl)
        (closed_of_next? hclose' rfl)
      obtain ⟨-, rfl⟩ := next?_injective hclose hclose'
      obtain ⟨-, rfl⟩ := next?_injective hbrace hbrace'
      obtain ⟨rfl, rfl⟩ := hbody.unique hbody'
      exact ⟨rfl, rfl⟩
    | function | typeName | assign | branch | branchElse | whileLoop =>
      simp [Node.heading] at hheading

theorem ReadsBody.unique : ∀ {cs rest rest' : List Char} {body body' : Body},
    ReadsBody cs rest body → ReadsBody cs rest' body' → body = body' ∧ rest = rest'
  | _, _, _, _, _, h@(.close hclose), h' => by
    have hheading := h.heading_eq h'
    cases h' with
    | close hclose' => exact ⟨rfl, (next?_injective hclose hclose').2⟩
    | result => cases hheading
    | item => exact absurd hheading.symm (Node.heading_ne _).1
  | _, _, _, _, _, h@(.result hword ht hend hclose), h' => by
    have hheading := h.heading_eq h'
    cases h' with
    | close => cases hheading
    | result hword' ht' hend' hclose' =>
      obtain ⟨-, rfl⟩ := next?_injective hword hword'
      obtain ⟨rfl, rfl⟩ := ht.unique ht' (closed_of_next? hend rfl) (closed_of_next? hend' rfl)
      obtain ⟨-, rfl⟩ := next?_injective hend hend'
      exact ⟨rfl, (next?_injective hclose hclose').2⟩
    | item => exact absurd hheading.symm (Node.heading_ne _).2.1
  | _, _, _, _, _, h@(.item hnode hmore), h' => by
    have hheading := h.heading_eq h'
    cases h' with
    | close => exact absurd hheading (Node.heading_ne _).1
    | result => exact absurd hheading (Node.heading_ne _).2.1
    | item hnode' hmore' =>
      obtain ⟨rfl, rfl⟩ := hnode.unique hnode'
      obtain ⟨hbody, rfl⟩ := hmore.unique hmore'
      cases hbody
      exact ⟨rfl, rfl⟩

end

end Scriptwright.JavaScript
