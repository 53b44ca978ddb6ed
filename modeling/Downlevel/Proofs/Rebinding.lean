import Downlevel.Proofs.Captured

/-!
# Binding captured variables again

The function literal around a deferred operand starts with one line for every captured variable,
`v = scope["v"]`. Here these lines are run. The object that is passed as `scope` has the caller's
value of every captured variable, so each line finds what it reads, as long as `scope` still is that
object. A captured variable of the caller that is itself called `scope` puts an end to that: behind
its line the other values are out of reach (`Rebinding.restores_iff`).
-/

namespace Downlevel

/-! ## The order of captured variables -/

namespace Capture

theorem mem_add {captured : List Token} {name v : Token} (h : v ∈ add captured name) :
    v = name ∨ v ∈ captured := by
  induction captured with
  | nil => exact .inl (List.mem_singleton.mp h)
  | cons first rest ih =>
    rw [add] at h
    split at h
    · exact List.mem_cons.mp h
    · split at h
      · exact .inr h
      · obtain rfl | h := List.mem_cons.mp h
        · exact .inr List.mem_cons_self
        · exact (ih h).imp_right (List.mem_cons_of_mem first)

/-- The keys go up. -/
def Ordered (captured : List Token) : Prop := captured.Pairwise (key · < key ·)

theorem ordered_add {captured : List Token} (h : Ordered captured) (name : Token) :
    Ordered (add captured name) := by
  induction captured with
  | nil => exact List.pairwise_singleton _ _
  | cons first rest ih =>
    obtain ⟨hfirst, hrest⟩ := List.pairwise_cons.mp h
    rw [add]
    split
    next hlt =>
      refine List.pairwise_cons.mpr ⟨fun v hv => ?_, h⟩
      obtain rfl | hv := List.mem_cons.mp hv
      · exact hlt
      · exact String.lt_trans hlt (hfirst v hv)
    next hlt =>
      split
      · exact h
      next hne =>
        refine List.pairwise_cons.mpr ⟨fun v hv => ?_, ih hrest⟩
        obtain rfl | hv := mem_add hv
        · exact Std.lt_of_le_of_ne (String.not_lt.mp hlt) (Ne.symm hne)
        · exact hfirst v hv

theorem ordered_ofOperands (resolver : Resolver) (enclosing : Option String)
    (operands : List Expression) : Ordered (ofOperands resolver enclosing operands) := by
  have hfold (names captured : List Token) (h : Ordered captured) :
      Ordered (names.foldl add captured) := by
    induction names generalizing captured with
    | nil => exact h
    | cons name rest ih => exact ih _ (ordered_add h name)
  exact hfold _ [] .nil

end Capture

/-! ## Running the lines -/

namespace Rebinding

/-- A value of the target language. -/
inductive Value where
  | invalid
  /-- A number, a string or whatever else has no members. -/
  | atom (code : Nat)
  | object (members : List (String × Value))

/-- The variables of a function, by their keys: the language does not mind the case of names. -/
abbrev Locals := String → Option Value

/-- The line that binds a variable to a member of `scope`. -/
structure Line where
  target : String
  member : String

namespace Line

/-- The line that is written for a captured variable. -/
def ofCaptured (name : Token) : Line := ⟨name.text, name.text⟩

/-- The line as it is written. -/
def text (line : Line) : String := line.target ++ " = scope[\"" ++ line.member ++ "\"]"

/-- Runs the line. An object has `invalid` for a member that it does not have; to look for a member
in anything else is an error. -/
def run (locals : Locals) (line : Line) : Option Locals :=
  match locals "scope" with
  | some (.object members) =>
    let value := (members.lookup line.member).getD .invalid
    some (Function.update locals (Text.foldCase line.target) (some value))
  | _ => none

end Line

/-- Runs the lines that are written for captured variables. -/
def run (captured : List Token) (locals : Locals) : Option Locals :=
  (captured.map Line.ofCaptured).foldlM Line.run locals

/-- A member of the object that is passed as `scope`, and the variable whose value it has. -/
structure Entry where
  member : String
  source : Token

namespace Entry

/-- The member that is written for a captured variable. -/
def ofCaptured (name : Token) : Entry := ⟨name.text, name⟩

/-- The member as it is written. -/
def pieces (entry : Entry) : List Piece :=
  [.text ("\"" ++ entry.member ++ "\": "), entry.source.piece]

/-- The member with the value that its variable has for the caller. -/
def eval (caller : String → Value) (entry : Entry) : String × Value :=
  (entry.member, caller (Capture.key entry.source))

end Entry

/-- The members of the scope object, with the values that the variables have for the caller. -/
def members (captured : List Token) (caller : String → Value) : List (String × Value) :=
  (captured.map Entry.ofCaptured).map (Entry.eval caller)

/-- What a function literal starts with: its parameter. -/
def start (captured : List Token) (caller : String → Value) : Locals :=
  Function.update (fun _ => none) "scope" (some (.object (members captured caller)))

/-- The lines run without an error, and behind them every captured variable has the value that it
has for the caller. -/
def Restores (captured : List Token) (caller : String → Value) : Prop :=
  ∃ locals, run captured (start captured caller) = some locals ∧
    ∀ v ∈ captured, locals (Capture.key v) = some (caller (Capture.key v))

variable {locals : Locals} {captured : List Token}

theorem run_cons (first : Token) (rest : List Token) (locals : Locals) :
    run (first :: rest) locals = (Line.run locals (.ofCaptured first)).bind (run rest) := rfl

theorem run_append (before after : List Token) (locals : Locals) :
    run (before ++ after) locals = (run before locals).bind (run after) := by
  rw [run, List.map_append, List.foldlM_append]
  rfl

/-- While `scope` is an object, a line binds its variable to the member of the same name. -/
theorem run_ofCaptured {members : List (String × Value)}
    (hobject : locals "scope" = some (.object members)) (v : Token) :
    Line.run locals (.ofCaptured v) = some (Function.update locals (Capture.key v)
      (some ((members.lookup v.text).getD .invalid))) := by
  simp [Line.run, hobject, Line.ofCaptured, Capture.key]

/-- Lines that leave `scope` alone bind every variable to the member of its name, and leave all
other variables alone. -/
theorem run_of_object {members : List (String × Value)} (hordered : Capture.Ordered captured)
    (hscope : ∀ v ∈ captured, Capture.key v ≠ "scope")
    (hobject : locals "scope" = some (.object members)) :
    ∃ after, run captured locals = some after ∧
      (∀ v ∈ captured, after (Capture.key v) =
        some ((members.lookup v.text).getD .invalid)) ∧
      ∀ k, (∀ v ∈ captured, Capture.key v ≠ k) → after k = locals k := by
  induction captured generalizing locals with
  | nil => exact ⟨locals, rfl, by simp, fun _ _ => rfl⟩
  | cons first rest ih =>
    obtain ⟨hfirst, hrest⟩ := List.pairwise_cons.mp hordered
    obtain ⟨hne, hscope⟩ := List.forall_mem_cons.mp hscope
    have hkept := (Function.update_of_ne (Ne.symm hne)
      (some ((members.lookup first.text).getD .invalid)) locals).trans hobject
    obtain ⟨after, hrun, hvalues, hothers⟩ := ih hrest hscope hkept
    refine ⟨after, ?_, ?_, fun k hk => ?_⟩
    · rw [run_cons, run_ofCaptured hobject, Option.bind_some, hrun]
    · refine List.forall_mem_cons.mpr ⟨?_, hvalues⟩
      rw [hothers _ fun v hv => (String.ne_of_lt (hfirst v hv)).symm, Function.update_self]
    · obtain ⟨hk, hrest⟩ := List.forall_mem_cons.mp hk
      rw [hothers k hrest, Function.update_of_ne (Ne.symm hk)]

/-- The scope object has the caller's value under the name of every captured variable. -/
theorem lookup_members {caller : String → Value} {v : Token} (h : v ∈ captured) :
    (members captured caller).lookup v.text = some (caller (Capture.key v)) := by
  induction captured with
  | nil => cases h
  | cons first rest ih =>
    have hcons : (members (first :: rest) caller).lookup v.text =
        if v.text == first.text then some (caller (Capture.key first))
        else (members rest caller).lookup v.text := by
      change ((first.text, caller (Capture.key first)) :: members rest caller).lookup v.text = _
      rw [List.lookup_cons]
      cases v.text == first.text <;> rfl
    rw [hcons]
    by_cases htext : v.text = first.text
    · simp [htext, Capture.key]
    · obtain rfl | h := List.mem_cons.mp h
      · exact absurd rfl htext
      · simpa [htext] using ih h

/-- The value has, under the name of the variable, what the variable is for the caller. -/
def Shows (value : Value) (caller : String → Value) (v : Token) : Prop :=
  ∃ members, value = .object members ∧
    (members.lookup v.text).getD .invalid = caller (Capture.key v)

section Reading

variable {value : Value} {caller : String → Value} (hordered : Capture.Ordered captured)
  (hscope : ∀ v ∈ captured, Capture.key v ≠ "scope") (hvalue : locals "scope" = some value)

include hordered hscope hvalue

theorem run_of_shows (hshows : ∀ v ∈ captured, Shows value caller v) :
    ∃ after, run captured locals = some after ∧
      (∀ v ∈ captured, after (Capture.key v) = some (caller (Capture.key v))) ∧
      ∀ k, (∀ v ∈ captured, Capture.key v ≠ k) → after k = locals k := by
  cases value with
  | object members =>
    obtain ⟨after, hrun, hvalues, hothers⟩ := run_of_object hordered hscope hvalue
    refine ⟨after, hrun, fun v hv => ?_, hothers⟩
    obtain ⟨_, hobject, hmember⟩ := hshows v hv
    cases hobject
    rw [hvalues v hv, hmember]
  | invalid | atom =>
    cases captured with
    | nil => exact ⟨locals, rfl, by simp, fun _ _ => rfl⟩
    | cons first rest =>
      obtain ⟨_, hobject, -⟩ := hshows first List.mem_cons_self
      cases hobject

theorem shows_of_run {after : Locals} (hrun : run captured locals = some after)
    (hvalues : ∀ v ∈ captured, after (Capture.key v) = some (caller (Capture.key v))) :
    ∀ v ∈ captured, Shows value caller v := by
  intro v hv
  cases value with
  | object members =>
    obtain ⟨_, hrun', hmembers, -⟩ := run_of_object hordered hscope hvalue
    obtain rfl := Option.some.inj (hrun.symm.trans hrun')
    exact ⟨members, rfl, Option.some.inj ((hmembers v hv).symm.trans (hvalues v hv))⟩
  | invalid | atom =>
    cases captured with
    | nil => cases hv
    | cons first rest =>
      rw [run_cons, Line.run, hvalue] at hrun
      cases hrun

end Reading

theorem start_scope (captured : List Token) (caller : String → Value) :
    start captured caller "scope" = some (.object (members captured caller)) :=
  Function.update_self ..

theorem shows_members {caller : String → Value} {v : Token} (h : v ∈ captured) :
    Shows (.object (members captured caller)) caller v :=
  ⟨_, rfl, by rw [lookup_members h, Option.getD_some]⟩

/-- Without a variable that is called `scope` nothing goes wrong. -/
theorem restores_of_no_scope (hordered : Capture.Ordered captured)
    (hscope : ∀ v ∈ captured, Capture.key v ≠ "scope") (caller : String → Value) :
    Restores captured caller := by
  obtain ⟨after, hrun, hvalues, -⟩ :=
    run_of_shows hordered hscope (start_scope captured caller) fun v hv => shows_members hv
  exact ⟨after, hrun, hvalues⟩

/-- With one, the variables behind it read from what the caller calls `scope`. -/
theorem restores_append_iff {before after : List Token} {s : Token} {caller : String → Value}
    (hordered : Capture.Ordered (before ++ s :: after)) (hs : Capture.key s = "scope") :
    Restores (before ++ s :: after) caller ↔ ∀ w ∈ after, Shows (caller "scope") caller w := by
  obtain ⟨hbefore, htail, hcross⟩ := List.pairwise_append.mp hordered
  obtain ⟨hlater, hafter⟩ := List.pairwise_cons.mp htail
  have hne_before : ∀ v ∈ before, Capture.key v ≠ "scope" := fun v hv =>
    hs ▸ String.ne_of_lt (hcross v hv s List.mem_cons_self)
  have hne_after : ∀ w ∈ after, Capture.key w ≠ "scope" := fun w hw =>
    hs ▸ (String.ne_of_lt (hlater w hw)).symm
  -- up to the line for `scope` all is well
  obtain ⟨first, hfirst, hvalues, hothers⟩ :=
    run_of_shows hbefore hne_before (start_scope (before ++ s :: after) caller)
      fun v hv => shows_members (List.mem_append_left _ hv)
  have hobject := (hothers "scope" hne_before).trans (start_scope _ _)
  have hmem : s ∈ before ++ s :: after := List.mem_append_right _ List.mem_cons_self
  let second := Function.update first "scope" (some (caller "scope"))
  have hsecond : Line.run first (.ofCaptured s) = some second := by
    rw [run_ofCaptured hobject, lookup_members hmem, Option.getD_some, hs]
  have hrun : run (before ++ s :: after) (start (before ++ s :: after) caller) =
      run after second := by
    rw [run_append, hfirst, Option.bind_some, run_cons, hsecond, Option.bind_some]
  have hscope : second "scope" = some (caller "scope") := Function.update_self ..
  constructor
  · rintro ⟨last, hlast, hrestored⟩
    rw [hrun] at hlast
    exact shows_of_run hafter hne_after hscope hlast fun w hw =>
      hrestored w (List.mem_append_right _ (List.mem_cons_of_mem s hw))
  · intro hshows
    obtain ⟨last, hlast, hrestored, hkept⟩ := run_of_shows hafter hne_after hscope hshows
    refine ⟨last, hrun.trans hlast, fun v hv => ?_⟩
    obtain hv | hv := List.mem_append.mp hv
    · have hlast : last (Capture.key v) = second (Capture.key v) := hkept _ fun w hw =>
        (String.ne_of_lt (hcross v hv w (List.mem_cons_of_mem s hw))).symm
      rw [hlast, ← hvalues v hv]
      exact Function.update_of_ne (hne_before v hv) ..
    · obtain rfl | hv := List.mem_cons.mp hv
      · rw [hs, hkept _ hne_after, hscope]
      · exact hrestored v hv

/-- The lines restore the caller's variables exactly if what the caller calls `scope` shows all
variables that come behind it. -/
theorem restores_iff {caller : String → Value} (hordered : Capture.Ordered captured) :
    Restores captured caller ↔ ∀ s ∈ captured, Capture.key s = "scope" →
      ∀ w ∈ captured, "scope" < Capture.key w → Shows (caller "scope") caller w := by
  by_cases hscope : ∀ v ∈ captured, Capture.key v ≠ "scope"
  · exact iff_of_true (restores_of_no_scope hordered hscope caller)
      fun s hs hkey => absurd hkey (hscope s hs)
  · -- the keys go up, so the variables behind `scope` are those with greater keys
    push Not at hscope
    obtain ⟨s, hs, hkey⟩ := hscope
    obtain ⟨before, after, rfl⟩ := List.append_of_mem hs
    rw [restores_append_iff hordered hkey]
    obtain ⟨-, htail, hcross⟩ := List.pairwise_append.mp hordered
    have hlater := (List.pairwise_cons.mp htail).1
    constructor
    · intro hshows _ _ _ w hw hlt
      obtain hw | hw := List.mem_append.mp hw
      · have hgt := hcross w hw s List.mem_cons_self
        rw [hkey] at hgt
        exact absurd hlt (String.lt_asymm hgt)
      · obtain rfl | hw := List.mem_cons.mp hw
        · rw [hkey] at hlt
          exact absurd hlt (String.lt_irrefl _)
        · exact hshows w hw
    · intro hshows w hw
      have hlt := hlater w hw
      rw [hkey] at hlt
      exact hshows s hs hkey w (List.mem_append_right _ (List.mem_cons_of_mem s hw)) hlt

/-- What is printed in front of a deferred operand is these lines and this object. They restore the
caller's variables, whatever their values, exactly if no captured variable comes behind one that is
called `scope`. -/
theorem restores_captured_iff (resolver : Resolver) (enclosing : Option String)
    (operands : List Expression) :
    let captured := Capture.ofOperands resolver enclosing operands
    (captured ≠ [] → Capture.scopeObject captured = .text "\x7b" ::
      Piece.separated ", " ((captured.map Entry.ofCaptured).map Entry.pieces) ++
        [.text "\x7d"]) ∧
    (∀ operand, Capture.deferred captured operand = .text "function(scope)" ::
      Piece.nested ((captured.map Line.ofCaptured).flatMap
        (fun line => Piece.newLine ++ [.text line.text]) ++
          Piece.newLine ++ .text "return " :: operand) ++
      Piece.newLine ++ [.text "end function"]) ∧
    (∀ caller, Restores captured caller ↔ ∀ s ∈ captured, Capture.key s = "scope" →
      ∀ w ∈ captured, "scope" < Capture.key w → Shows (caller "scope") caller w) ∧
    ((∀ caller, Restores captured caller) ↔
      ¬ ∃ s ∈ captured, Capture.key s = "scope" ∧
        ∃ w ∈ captured, "scope" < Capture.key w) := by
  intro captured
  have hordered := Capture.ordered_ofOperands resolver enclosing operands
  refine ⟨fun hne => ?_, fun operand => ?_, fun caller => restores_iff hordered, ?_, ?_⟩
  · rw [List.map_map]
    cases hcaptured : captured with
    | nil => exact absurd hcaptured hne
    | cons first rest => rfl
  · rw [List.flatMap_map]
    rfl
  · rintro hrestores ⟨s, hs, hkey, w, hw, hlt⟩
    -- the caller may have a value without members there
    obtain ⟨_, hobject, -⟩ :=
      (restores_iff hordered).mp (hrestores fun _ => .invalid) s hs hkey w hw hlt
    cases hobject
  · intro hnone caller
    refine (restores_iff hordered).mpr fun s hs hkey w hw hlt => ?_
    exact absurd ⟨s, hs, hkey, w, hw, hlt⟩ hnone

/-- In `c ? f(scope, z) : x` the line for `scope` comes before the line for `z`, which then finds no
object to read from. -/
theorem not_restores_scope :
    let name (text : String) : Expression := .identifier { (default : Token) with text }
    let captured := Capture.ofOperands .none none
      [.call (name "f") default [name "scope", name "z"] default, name "x"]
    ¬ ∀ caller, Restores captured caller := by
  intro name captured hrestores
  have hordered : Capture.Ordered captured := Capture.ordered_ofOperands ..
  have hscope : Capture.Has captured "scope" := by decide
  have hz : Capture.Has captured "z" := by decide
  obtain ⟨s, hs, hkey⟩ := hscope
  obtain ⟨w, hw, hlater⟩ := hz
  have hlt : "scope" < Capture.key w := by
    rw [hlater]
    decide
  obtain ⟨_, hobject, -⟩ :=
    (restores_iff hordered).mp (hrestores fun _ => .atom 0) s hs hkey w hw hlt
  cases hobject

end Rebinding

end Downlevel
