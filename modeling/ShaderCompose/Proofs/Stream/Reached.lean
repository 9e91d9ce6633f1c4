import ShaderCompose.Proofs.Stream.Inputs

/-!
What an entry point reaches.
-/

namespace ShaderCompose.Stream

open List Relation

def Descends (shader : Shader) (inner outer : List String × String) : Prop :=
  inner.1 = outer.2 :: outer.1 ∧ outer.2 ∉ outer.1 ∧ Calls shader outer.2 inner.2

theorem descends_wellFounded (shader : Shader) : WellFounded (Descends shader) := by
  refine Subrelation.wf ?_ (measure fun c : List String × String => (unvisited shader c.1).length).wf
  rintro ⟨_, b⟩ ⟨path, a⟩ ⟨rfl, hnew, body, hbody, -⟩
  exact length_unvisited_lt hbody hnew

/-- A walk without a bound on its depth. -/
structure Unfolds (shader : Shader) (streams : StreamIndex) (walk : List String → String → Usage → Usage) :
    Prop where
  absent : ∀ {path name u}, bodyOf? shader name = none → walk path name u = u
  again : ∀ {path name u}, (bodyOf? shader name).isSome → name ∈ path → ∃ method ∈ shader.methods,
    method.name = name ∧ walk path name u = { u with log := u.log ++ [.errorAt method.loc (.recursiveCall name)] }
  enter : ∀ {path name body u}, bodyOf? shader name = some body → name ∉ path →
    walk path name u = walkStmts streams (methodParams shader) (walk (name :: path)) body u

section

variable {shader : Shader} {streams : StreamIndex} {fuel fuel' : Nat} {path : List String} {name : String}
  {u v : Usage}

theorem walkMethod_eq_of_lt (h : (unvisited shader path).length < fuel)
    (h' : (unvisited shader path).length < fuel') :
    walkMethod shader streams fuel path name u = walkMethod shader streams fuel' path name u := by
  induction fuel generalizing fuel' path name u with
  | zero => exact absurd h (Nat.not_lt_zero _)
  | succ fuel ih =>
    obtain ⟨fuel', rfl⟩ := Nat.exists_eq_succ_of_ne_zero (Nat.ne_zero_of_lt h')
    simp only [walkMethod]
    split
    · rfl
    · split
      · rfl
      · next hmethod _ body hbody =>
        split
        · rfl
        · next hnew =>
          have hbodyOf : bodyOf? shader name = some body := by rw [bodyOf?, hmethod]; exact hbody
          have hless := length_unvisited_lt hbodyOf (by simpa using hnew)
          have henter : walkMethod shader streams fuel (name :: path) =
              walkMethod shader streams fuel' (name :: path) := by
            funext n w
            exact ih (by omega) (by omega)
          rw [henter]

theorem exists_unfolds (shader : Shader) (streams : StreamIndex) (entry : String) :
    ∃ walk, Unfolds shader streams walk ∧ walk [] entry {} = usageOf shader streams entry := by
  refine ⟨fun path => walkMethod shader streams ((unvisited shader path).length + 1) path,
    ⟨fun {path name u} hbody => ?_, fun {path name u} hbody hmem => ?_, fun {path name body u} hbody hnew => ?_⟩,
    walkMethod_eq_of_lt (Nat.lt_succ_self _) (length_unvisited_nil_lt shader)⟩
  all_goals
    rcases @walkMethod_cases shader streams (unvisited shader path).length path name u with
      ⟨hnone, heq⟩ | ⟨method, hmethod, hname, hsome, hpath, heq⟩ | ⟨body', hbody', hpath, heq⟩
  · exact heq
  · simp [hbody] at hsome
  · cases hbody.symm.trans hbody'
  · simp [hnone] at hbody
  · exact ⟨method, hmethod, hname, heq⟩
  · exact absurd hmem hpath
  · cases hnone.symm.trans hbody
  · exact absurd hpath hnew
  · cases hbody.symm.trans hbody'
    have hless := length_unvisited_lt hbody hnew
    have henter : walkMethod shader streams (unvisited shader path).length (name :: path) =
        walkMethod shader streams ((unvisited shader (name :: path)).length + 1) (name :: path) := by
      funext n w
      exact walkMethod_eq_of_lt hless (Nat.lt_succ_self _)
    rw [heq, henter]

/-! ## Walks that report nothing -/

def Walked (shader : Shader) (streams : StreamIndex) (v : Usage) (path : List String) (name : String) : Prop :=
  ∃ fuel w, (unvisited shader path).length < fuel ∧ (walkMethod shader streams fuel path name w).log = w.log ∧
    (walkMethod shader streams fuel path name w).Le v

namespace Walked

variable {a b : String} {body : List Stmt}

theorem entered (h : Walked shader streams v path a) (hbody : bodyOf? shader a = some body) :
    a ∉ path ∧ ∃ fuel, (unvisited shader (a :: path)).length < fuel ∧
      Entered shader streams fuel (a :: path) body v := by
  obtain ⟨fuel, w, hfuel, hlog, hle⟩ := h
  obtain ⟨fuel, rfl⟩ := Nat.exists_eq_succ_of_ne_zero (Nat.ne_zero_of_lt hfuel)
  obtain ⟨hnew, hentered⟩ := entered_of_log_eq hlog hbody
  have hless := length_unvisited_lt hbody hnew
  exact ⟨hnew, fuel, by omega, hentered.mono hle⟩

theorem call (h : Walked shader streams v path a) (hcall : Calls shader a b) :
    Walked shader streams v (a :: path) b := by
  obtain ⟨body, hbody, x, hx, hname⟩ := hcall
  obtain ⟨-, fuel, hfuel, hentered⟩ := h.entered hbody
  obtain ⟨w, hlog, hle⟩ := hentered.called x hx b hname
  exact ⟨fuel, w, hfuel, hlog, hle⟩

theorem reach (h : Walked shader streams v path a) (hreach : ReflTransGen (Calls shader) a b) :
    ∃ path', path ⊆ path' ∧ Walked shader streams v path' b := by
  induction hreach with
  | refl => exact ⟨path, List.Subset.refl _, h⟩
  | @tail b c _ hcall ih =>
    obtain ⟨path', hsubset, hb⟩ := ih
    exact ⟨b :: path', subset_cons_of_subset b hsubset, hb.call hcall⟩

theorem not_loop (h : Walked shader streams v path a) : ¬TransGen (Calls shader) a a := by
  intro hloop
  obtain ⟨b, hcall, hback⟩ := TransGen.head'_iff.mp hloop
  obtain ⟨path', hsubset, ha⟩ := (h.call hcall).reach hback
  obtain ⟨body, hbody, -⟩ := hcall
  exact (ha.entered hbody).1 (hsubset mem_cons_self)

end Walked

variable {entry : String}

theorem loop_of_mem_log {d : Diagnostic} (h : d ∈ (usageOf shader streams entry).log) :
    ∃ method ∈ shader.methods, d = .errorAt method.loc (.recursiveCall method.name) ∧
      ReflTransGen (Calls shader) entry method.name ∧ TransGen (Calls shader) method.name method.name := by
  refine walkMethod_keeps (P := fun u => ∀ d ∈ u.log, ∃ method ∈ shader.methods,
      d = .errorAt method.loc (.recursiveCall method.name) ∧ ReflTransGen (Calls shader) entry method.name ∧
        TransGen (Calls shader) method.name method.name)
    (fun _ _ hu => ?_) (fun _ _ _ hu => ?_) (fun method hmethod hreach hloop hu => ?_) _ .refl
    (fun _ hp => absurd hp not_mem_nil) (fun _ hd => absurd hd not_mem_nil) d h
  · rwa [Usage.log_read]
  · rwa [Usage.log_write]
  · exact forall_mem_append.mpr ⟨hu, by simpa using ⟨method, hmethod, rfl, hreach, hloop⟩⟩

theorem walked_of_log (hlog : ∀ loc n, .errorAt loc (.recursiveCall n) ∉ (usageOf shader streams entry).log) :
    Walked shader streams (usageOf shader streams entry) [] entry := by
  refine ⟨_, {}, length_unvisited_nil_lt shader, eq_nil_iff_forall_not_mem.mpr fun d hd => ?_, .refl _⟩
  obtain ⟨method, -, rfl, -⟩ := loop_of_mem_log hd
  exact hlog _ _ hd

end

/-- The walk ends, and reports exactly if a method with a body is reached that reaches itself. -/
theorem recursion_exact (shader : Shader) (streams : StreamIndex) (entry : String) :
    WellFounded (Descends shader) ∧
    (∃ walk, Unfolds shader streams walk ∧ walk [] entry {} = usageOf shader streams entry) ∧
    ((∃ loc n, .errorAt loc (.recursiveCall n) ∈ (usageOf shader streams entry).log) ↔
      ∃ n, ReflTransGen (Calls shader) entry n ∧ (bodyOf? shader n).isSome ∧ TransGen (Calls shader) n n) := by
  refine ⟨descends_wellFounded shader, exists_unfolds shader streams entry, fun ⟨loc, n, h⟩ => ?_, ?_⟩
  · obtain ⟨method, -, -, hreach, hloop⟩ := loop_of_mem_log h
    obtain ⟨_, ⟨body, hbody, -⟩, -⟩ := TransGen.head'_iff.mp hloop
    exact ⟨_, hreach, by simp [hbody], hloop⟩
  · rintro ⟨n, hreach, -, hloop⟩
    by_contra hlog
    obtain ⟨path, -, hn⟩ := (walked_of_log (by simpa using hlog)).reach hreach
    exact hn.not_loop hloop

/-- Inputs and outputs are the streams named in reached code, and outputs those changed there. -/
theorem usage_exact {shader : Shader} {streams : StreamIndex} {entry : String}
    (hlog : ∀ loc n, .errorAt loc (.recursiveCall n) ∉ (usageOf shader streams entry).log) :
    (usageOf shader streams entry).inputs.Nodup ∧ (usageOf shader streams entry).outputs.Nodup ∧
    (∀ k, k ∈ (usageOf shader streams entry).inputs ∨ k ∈ (usageOf shader streams entry).outputs ↔
      ∃ x n, InReach shader entry x ∧ x.ident? = some n ∧ streams.lookup n = some k) ∧
    ∀ k, k ∈ (usageOf shader streams entry).outputs ↔
      ∃ x n, InReach shader entry x ∧ n ∈ x.changes (methodParams shader) ∧ streams.lookup n = some k := by
  have hwalked := walked_of_log hlog
  have htidy : (usageOf shader streams entry).Tidy
      (fun k => ∃ x n, InReach shader entry x ∧ x.ident? = some n ∧ streams.lookup n = some k)
      (fun k => (∃ x n, InReach shader entry x ∧ x.ident? = some n ∧ streams.lookup n = some k) ∧
        ∃ x n, InReach shader entry x ∧ n ∈ x.changes (methodParams shader) ∧ streams.lookup n = some k) :=
    tidy_usageOf (fun ⟨x, hx, hn⟩ hk => ⟨x, _, hx, hn, hk⟩)
      fun ⟨x, hx, hn⟩ ⟨y, hy, hc⟩ hk => ⟨⟨x, _, hx, hn, hk⟩, y, _, hy, hc, hk⟩
  refine ⟨htidy.inputs_nodup, htidy.outputs_nodup, fun k => ⟨fun h => ?_, ?_⟩, fun k => ⟨fun h => ?_, ?_⟩⟩
  · exact h.elim (htidy.inputs k) fun h => (htidy.outputs k h).1
  · rintro ⟨x, n, ⟨name, body, hreach, hbody, hx⟩, hn, hk⟩
    obtain ⟨path, -, hname⟩ := hwalked.reach hreach
    obtain ⟨-, fuel, -, hentered⟩ := hname.entered hbody
    exact hentered.used x hx n k hn hk
  · exact (htidy.outputs k h).2
  · rintro ⟨x, n, ⟨name, body, hreach, hbody, hx⟩, hn, hk⟩
    obtain ⟨path, -, hname⟩ := hwalked.reach hreach
    obtain ⟨-, fuel, -, hentered⟩ := hname.entered hbody
    exact hentered.changed x hx n hn k hk

theorem lantern_usage_exact :
    (∀ loc n, .errorAt loc (.recursiveCall n) ∉ (usageOf lanternBothWays lanternStreams "PS").log) ∧
    (∃ k ∈ (usageOf lanternBothWays lanternStreams "PS").outputs, lanternStreams.lookup "streams_Glow" = some k) ∧
    ∀ k ∈ (usageOf lanternBothWays lanternStreams "PS").outputs, ∃ x n, InReach lanternBothWays "PS" x ∧
      n ∈ x.changes (methodParams lanternBothWays) ∧ lanternStreams.lookup n = some k := by
  have hlog : ∀ loc n, .errorAt loc (.recursiveCall n) ∉ (usageOf lanternBothWays lanternStreams "PS").log := by
    have hlength : (usageOf lanternBothWays lanternStreams "PS").log.length = 0 := by decide +kernel
    simp [List.eq_nil_of_length_eq_zero hlength]
  exact ⟨hlog, by decide +kernel, fun k => ((usage_exact hlog).2.2.2 k).mp⟩

end ShaderCompose.Stream
