import ShaderCompose.Proofs.Stream.Traces

/-!
The inputs of an entry point and its executions.
-/

namespace ShaderCompose.Stream

open List

def outcomesOf (shader : Shader) (streams : StreamIndex) (entry : String) (k : Nat) : Outcomes :=
  runMethod (outcome k) streams shader (shader.methods.length + 1) entry

section

variable {shader : Shader} {streams : StreamIndex} {u : Usage} {fuel : Nat} {path : List String} {name : String}

theorem executions_bounded (hlog : (walkMethod shader streams fuel path name u).log = u.log)
    (hfuel : (unvisited shader path).length < fuel) (depth : Nat) :
    ∀ t ∈ runMethod single streams shader depth name, t ∈ runMethod single streams shader fuel name := by
  induction fuel generalizing path name u depth with
  | zero => exact absurd hfuel (Nat.not_lt_zero _)
  | succ fuel ih =>
    cases depth with
    | zero => exact fun t ht => absurd ht (Language.notMem_zero t)
    | succ depth =>
      rw [runMethod, runMethod]
      cases hbody : bodyOf? shader name with
      | none => exact fun t ht => ht
      | some body =>
        obtain ⟨hnew, hentered⟩ := entered_of_log_eq hlog hbody
        refine (runStmts_related respects_subset (fun e he x hx => ⟨fun _ _ _ _ _ t ht => ht, fun n hn => ?_⟩)
          _).total respects_subset
        obtain ⟨w, hw, -⟩ := hentered.called x (mem_flatMap.mpr ⟨e, he, hx⟩) n hn
        have hless := length_unvisited_lt hbody hnew
        exact ih hw (by omega) depth

theorem used_of_accessed (hlog : (walkMethod shader streams fuel path name u).log = u.log) :
    ∀ t ∈ runMethod single streams shader fuel name, ∀ e ∈ t,
      (walkMethod shader streams fuel path name u).Used e.stream := by
  induction fuel generalizing path name u with
  | zero => exact fun t ht => absurd ht (Language.notMem_zero t)
  | succ fuel ih =>
    have hR := respects_streams (walkMethod shader streams (fuel + 1) path name u).Used
    rw [runMethod]
    cases hbody : bodyOf? shader name with
    | none => exact hR.one
    | some body =>
      obtain ⟨-, hentered⟩ := entered_of_log_eq hlog hbody
      have hparts : ∀ e ∈ Stmt.rootsAll body, ∀ x ∈ e.parts, RelatedAt (fun L _ : Language Event => ∀ t ∈ L,
          ∀ e ∈ t, (walkMethod shader streams (fuel + 1) path name u).Used e.stream) single single streams
          (runMethod single streams shader fuel) (runMethod single streams shader fuel) x := by
        intro e he x hx
        have hx := mem_flatMap.mpr ⟨e, he, hx⟩
        refine ⟨fun n hn k kind hk t ht e he => ?_, fun n hn t ht e he => ?_⟩
        · cases ht
          cases mem_singleton.mp he
          exact hentered.used x hx n k hn hk
        · obtain ⟨w, hw, hle⟩ := hentered.called x hx n hn
          exact hle.used _ (ih hw t ht e he)
      exact (runStmts_related hR hparts _).total hR

theorem exists_event_of_firstAccess {k : Nat} {t : List Event} {kind : AccessKind}
    (h : firstAccess k t = some kind) : ∃ e ∈ t, e.stream = k := by
  obtain ⟨e, he, -⟩ := Option.map_eq_some_iff.mp h
  exact ⟨e, mem_of_find?_eq_some he, by simpa using find?_some he⟩

end

/-- Inputs are all that is read before it is written, exactly if no other written stream can be read
first. -/
theorem inputs_complete_iff {shader : Shader} {streams : StreamIndex} {entry : String}
    (hlog : (usageOf shader streams entry).log = []) :
    (∀ t, Executes shader streams entry t → ∀ k, firstAccess k t = some .read →
      k ∈ (usageOf shader streams entry).inputs) ↔
    ∀ k ∈ (usageOf shader streams entry).outputs, k ∉ (usageOf shader streams entry).inputs →
      (outcomesOf shader streams entry k).has (some .read) = false := by
  have hfirsts := fun k => firsts_runMethod k shader streams (shader.methods.length + 1) entry (some .read)
  constructor
  · intro hcomplete k _ hinput
    refine Bool.eq_false_iff.mpr fun hread => hinput ?_
    obtain ⟨t, ht, hfirst⟩ := (hfirsts k).mp hread
    exact hcomplete t ⟨_, ht⟩ k hfirst
  · rintro hassigned t ⟨depth, ht⟩ k hfirst
    have ht' := executions_bounded (u := {}) hlog (length_unvisited_nil_lt shader) depth t ht
    obtain ⟨e, he, rfl⟩ := exists_event_of_firstAccess hfirst
    rcases used_of_accessed (u := {}) hlog t ht' e he with hinput | houtput
    · exact hinput
    · by_contra hinput
      have hread : (outcomesOf shader streams entry e.stream).has (some .read) = true :=
        (hfirsts e.stream).mpr ⟨t, ht', hfirst⟩
      rw [hassigned _ houtput hinput] at hread
      cases hread

def lanternShader (statements : List Stmt) : Shader where
  table := #[
    { name := "streams_Glow", loc := .generated, quals := { stream := true }
      kind := .var { name := "float" } none none },
    { name := "streams_Color", loc := .generated, quals := { stream := true }
      kind := .var { name := "float" } (some "SV_Target") none },
    { name := "Fill", loc := .generated
      kind := .method { name := "void" }
        [{ name := "x", type := { name := "float" }, quals := { output := true }, loc := .generated }] none
        (some [assignStmt (nameExpr "x") (nameExpr "c")]) },
    { name := "PS", loc := .generated, entry := some .pixel
      kind := .method { name := "void" } [] none
        (some (statements ++ [assignStmt (nameExpr "streams_Color") (nameExpr "streams_Glow")])) }]
  declarations := [0, 1, 2, 3]

def lanternStreams : StreamIndex := streamIndex (streamVars (lanternShader []))

def lanternWrite : Stmt := assignStmt (nameExpr "streams_Glow") (nameExpr "c")

def lanternBothWays : Shader := lanternShader [.ifElse Stmt.generatedLead (nameExpr "c") lanternWrite
  (.simple Stmt.generatedLead (.expr (.call .generated (nameExpr "Fill") [nameExpr "streams_Glow"])))]

def lanternOneWay : Shader := lanternShader [.ifThen Stmt.generatedLead (nameExpr "c") lanternWrite]

theorem written_on_both_ways :
    (usageOf lanternBothWays lanternStreams "PS").log = [] ∧
    (usageOf lanternBothWays lanternStreams "PS").inputs = [] ∧
    ∀ t, Executes lanternBothWays lanternStreams "PS" t → ∀ k, firstAccess k t ≠ some .read := by
  obtain ⟨hlength, hinputs, hassigned⟩ :
      (usageOf lanternBothWays lanternStreams "PS").log.length = 0 ∧
      (usageOf lanternBothWays lanternStreams "PS").inputs = [] ∧
      ∀ k ∈ (usageOf lanternBothWays lanternStreams "PS").outputs,
        (outcomesOf lanternBothWays lanternStreams "PS" k).has (some .read) = false := by
    decide +kernel
  have hlog := List.eq_nil_of_length_eq_zero hlength
  refine ⟨hlog, hinputs, fun t ht k hread => ?_⟩
  have hinput := (inputs_complete_iff hlog).mpr (fun k hk _ => hassigned k hk) t ht k hread
  rw [hinputs] at hinput
  cases hinput

theorem skipped_write_is_no_input :
    (usageOf lanternOneWay lanternStreams "PS").log = [] ∧
    (usageOf lanternOneWay lanternStreams "PS").inputs = [] ∧
    ∃ t, Executes lanternOneWay lanternStreams "PS" t ∧ firstAccess 0 t = some .read := by
  obtain ⟨hlength, hinputs, hread⟩ :
      (usageOf lanternOneWay lanternStreams "PS").log.length = 0 ∧
      (usageOf lanternOneWay lanternStreams "PS").inputs = [] ∧
      (outcomesOf lanternOneWay lanternStreams "PS" 0).has (some .read) = true := by
    decide +kernel
  obtain ⟨t, ht, hfirst⟩ := (firsts_runMethod 0 lanternOneWay lanternStreams _ "PS" (some .read)).mp hread
  exact ⟨List.eq_nil_of_length_eq_zero hlength, hinputs, t, ⟨_, ht⟩, hfirst⟩

end ShaderCompose.Stream
