import Logo.Proofs.Calls

/-! Traversals as calls. To run over a list with a procedure is to call the procedure on the items, in an order and with
inputs that can be written down as calls. So each traversal ends as certain call expressions do. -/
namespace Logo

namespace Eval
variable {m m' m₀ : Machine} {span : Span} {name : String} {p : Procedure} {items : List Value} {e : Expr}

/-- A traversal of an expression that has a list as value. -/
theorem ends_traverse_iff {span : Span} {t : Traversal} (hlist : Ends (fun n => expr n e) m₀ (.ok (.list items) m))
    {r : EStateM.Result Halt Machine Value} : Ends (fun n => expr n (.traverse span t name e)) m₀ r ↔
      Ends (fun n => locate span (traverse (invoke (stmt n)) t name (.list items))) m r := by
  obtain ⟨-, n₀, hn₀⟩ := hlist
  rw [← ends_succ_iff]
  exact ends_congr ⟨n₀, fun n hn => locate_congr (bind_of_ok (hn₀ n hn)) span⟩

section
variable {run : Procedure → List Value → Eval Value} (hfound : m.workspace.procedure? name = some p)
include hfound

theorem traverse_map (harity : p.arity = 1) : traverse run .map name (.list items) m =
    (items.mapM (fun v => run p [v]) >>= fun vs => pure (.list vs)) m := by
  simp only [traverse, expectArity, Bind.bind, EStateM.bind, MonadState.get, getThe, MonadStateOf.get, EStateM.get,
    hfound, harity, if_true]
  rfl

theorem traverse_filter (harity : p.arity = 1) : traverse run .filter name (.list items) m =
    (keep (fun v => run p [v] >>= fun x => ofExcept (x.toBool "FILTER")) items >>= fun vs => pure (.list vs)) m := by
  simp only [traverse, expectArity, Bind.bind, EStateM.bind, MonadState.get, getThe, MonadStateOf.get, EStateM.get,
    hfound, harity, if_true]
  rfl

theorem traverse_reduce (harity : p.arity = 2) (v : Value) (rest : List Value) :
    traverse run .reduce name (.list (v :: rest)) m = rest.foldlM (fun acc item => run p [acc, item]) v m := by
  simp only [traverse, expectArity, Bind.bind, EStateM.bind, MonadState.get, getThe, MonadStateOf.get, EStateM.get,
    hfound, harity, if_true]
  rfl

theorem traverse_apply (harity : p.arity = items.length) :
    traverse run .apply name (.list items) m = run p items m := by
  have hinputs : traverse run .apply name (.list items) m =
      (expectArity p items.length >>= fun _ => run p items) m := by
    simp only [traverse, Bind.bind, EStateM.bind, MonadState.get, getThe, MonadStateOf.get, EStateM.get, hfound]
    rfl
  rw [hinputs, expectArity, if_pos harity]
  rfl

end

section
variable {span' : Span} {r : EStateM.Result Halt Machine Value}
  (hlist : Ends (fun n => expr n e) m₀ (.ok (.list items) m))
  (hfound : m.workspace.procedure? name = some p)
include hlist hfound

/-- To map is to evaluate the list of calls. -/
theorem ends_map_iff (harity : p.arity = 1) (h : Unreplaced span' name p items m) :
    Ends (fun n => expr n (.traverse span .map name e)) m₀ r ↔
      Ends (fun n => expr n (callsOn span' name items)) m r := by
  have hplaced : ∀ n, Placed (items.mapM (fun v => invoke (stmt n) p [v]) >>= fun vs => pure (Value.list vs)) :=
    fun n => (Placed.mapM (fun v => .invoke n p [v]) items).bind fun _ => .pure _
  have hcalls : ∀ n, locate span (traverse (invoke (stmt n)) .map name (.list items)) m =
      (items.mapM (fun v => invoke (stmt n) p [v]) >>= fun vs => pure (Value.list vs)) m := fun n =>
    (locate_congr (traverse_map hfound harity) span).trans (congrFun ((hplaced n).locate_eq span) m)
  rw [ends_traverse_iff hlist, ends_congr ⟨0, fun n _ => hcalls n⟩, callsOn, ends_list_iff]
  refine ends_bind_congr (steady_mapM (fun v => steady_invoke p [v]) items) (steady_mapM steady_expr _) ?_ ?_
  · exact fun r => ends_mapM_calls_iff harity h
  · exact fun vs m₁ _ r => Iff.rfl

/-- To apply is one call on all items. -/
theorem ends_apply_iff (harity : p.arity = items.length) :
    Ends (fun n => expr n (.traverse span .apply name e)) m₀ r ↔
      Ends (fun n => expr n (.call span' name (items.map (Value.constant span')))) m r := by
  have hcall : ∀ n, locate span (traverse (invoke (stmt n)) .apply name (.list items)) m =
      invoke (stmt n) p items m := fun n =>
    (locate_congr (traverse_apply hfound harity) span).trans (congrFun ((Placed.invoke n p items).locate_eq span) m)
  rw [ends_traverse_iff hlist, ends_congr ⟨0, fun n _ => hcall n⟩, ends_call_constants_iff hfound items harity.symm]

end

/-! ### Reductions -/

def reduction (span : Span) (name : String) (v : Value) (rest : List Value) : Expr :=
  rest.foldl (fun acc item => .call span name [acc, item.constant span]) (v.constant span)

/-- All calls look for the procedure before the first of them runs. -/
theorem ends_reduction_iff (hfound : m.workspace.procedure? name = some p) (harity : p.arity = 2) (v : Value)
    (rest : List Value) {r : EStateM.Result Halt Machine Value} :
    Ends (fun n => rest.foldlM (fun acc item => invoke (stmt n) p [acc, item]) v) m r ↔
      Ends (fun n => expr n (reduction span name v rest)) m r := by
  induction rest using List.reverseRecOn generalizing r with
  | nil =>
    have hconstant := ends_constant span v m
    constructor
    · intro h
      obtain rfl := ends_pure_iff.mp h
      exact hconstant
    · intro h
      exact ends_pure_iff.mpr (h.unique hconstant)
  | append_singleton rest item ih =>
    have hfold : ∀ n, (rest ++ [item]).foldlM (fun acc item => invoke (stmt n) p [acc, item]) v =
        rest.foldlM (fun acc item => invoke (stmt n) p [acc, item]) v >>= fun acc => invoke (stmt n) p [acc, item] := by
      intro n
      simp [List.foldlM_append]
    have hcall : reduction span name v (rest ++ [item]) =
        .call span name [reduction span name v rest, item.constant span] := by simp [reduction]
    have hargs : ∀ n, [reduction span name v rest, item.constant span].mapM (expr n) >>= invoke (stmt n) p =
        expr n (reduction span name v rest) >>= fun acc => expr n (item.constant span) >>= fun x =>
          invoke (stmt n) p [acc, x] := by
      intro n
      simp
    have hlength : [reduction span name v rest, item.constant span].length = p.arity := harity.symm
    rw [hcall, ends_call_iff hfound hlength]
    simp only [hfold, hargs]
    refine ends_bind_congr (steady_foldlM (fun b c => steady_invoke p [b, c]) rest v) (steady_expr _) (fun r => ih) ?_
    intro acc m₁ _ r
    exact ((ends_constant span item m₁).bind_iff (f := fun n x => invoke (stmt n) p [acc, x])).symm

/-- To reduce is to make the calls one inside the other. -/
theorem ends_reduce_iff {span' : Span} {v : Value} {rest : List Value} {r : EStateM.Result Halt Machine Value}
    (hlist : Ends (fun n => expr n e) m₀ (.ok (.list (v :: rest)) m)) (hfound : m.workspace.procedure? name = some p)
    (harity : p.arity = 2) : Ends (fun n => expr n (.traverse span .reduce name e)) m₀ r ↔
      Ends (fun n => expr n (reduction span' name v rest)) m r := by
  have hfold : ∀ n, locate span (traverse (invoke (stmt n)) .reduce name (.list (v :: rest))) m =
      rest.foldlM (fun acc item => invoke (stmt n) p [acc, item]) v m := by
    intro n
    have hplaced := Placed.foldlM (fun acc item => .invoke n p [acc, item]) rest v
    exact (locate_congr (traverse_reduce hfound harity v rest) span).trans (congrFun (hplaced.locate_eq span) m)
  rw [ends_traverse_iff hlist, ends_congr ⟨0, fun n _ => hfold n⟩, ends_reduction_iff hfound harity]

/-- The first call that fails is the last. -/
theorem ends_reduction_of_error (hfound : m.workspace.procedure? name = some p) (harity : p.arity = 2)
    {v item acc : Value}
    {before after : List Value} {m₁ m₂ : Machine} {halt : Halt}
    (hbefore : Ends (fun n => expr n (reduction span name v before)) m (.ok acc m₁))
    (hfound₁ : m₁.workspace.procedure? name = some p)
    (hcall : Ends (fun n => expr n (.call span name ([acc, item].map (Value.constant span)))) m₁ (.error halt m₂)) :
    Ends (fun n => expr n (reduction span name v (before ++ item :: after))) m (.error halt m₂) := by
  rw [ends_call_constants_iff hfound₁ [acc, item] harity.symm] at hcall
  rw [← ends_reduction_iff hfound harity] at hbefore ⊢
  simp only [List.foldlM_append, List.foldlM_cons]
  exact hbefore.bind_iff.mpr ((steady_invoke p [acc, item]).ends_bind_iff.mpr (.inr ⟨halt, m₂, hcall, rfl⟩))

/-! ### Filters -/

def kept (items : List Value) (results : List Float) : List Value :=
  ((items.zip results).filter fun pair => pair.2 != 0).map Prod.fst

theorem kept_cons (v : Value) (items : List Value) (y : Float) (ys : List Float) :
    kept (v :: items) (y :: ys) = if y != 0 then v :: kept items ys else kept items ys := by
  simp only [kept, List.zip_cons_cons, List.filter_cons]
  split <;> rfl

def tested (span : Span) (x : Eval Value) : Eval Bool := x >>= fun v => locate span (ofExcept (v.toBool "FILTER"))

theorem steady_tested {x : Nat → Eval Value} (hx : Steady x) : Steady fun n => tested span (x n) := fun n k hk =>
  (hx n k hk).bind fun v => .locate (a := .expr (.number span 0)) (by simp) trivial (.ofExcept (v.toBool_fails _))

theorem ends_tested_iff {x : Nat → Eval Value} (hx : Steady x) {r : EStateM.Result Halt Machine Bool} :
    Ends (fun n => tested span (x n)) m r ↔
      (∃ y m₁, Ends x m (.ok (.number y) m₁) ∧ r = .ok (y != 0) m₁) ∨
      (∃ vs m₁, Ends x m (.ok (.list vs) m₁) ∧
        r = .error (.fault ⟨.type "FILTER" "a number" (Value.list vs).text, some span⟩) m₁) ∨
      ∃ halt m₁, Ends x m (.error halt m₁) ∧ r = .error halt m₁ := by
  have hfault : ∀ {c : Cause} {m : Machine} {r : EStateM.Result Halt Machine Bool},
      Ends (fun _ => locate span (ofExcept (.error c))) m r ↔ r = .error (.fault ⟨c, some span⟩) m := by
    intro c m r
    constructor
    · rintro ⟨-, n, hn⟩
      exact (hn n (Nat.le_refl n)).symm
    · rintro rfl
      exact ⟨by simp [Finished], 0, fun _ _ => rfl⟩
  unfold tested
  rw [hx.ends_bind_iff]
  constructor
  · rintro (⟨v, m₁, hv, hr⟩ | hfails)
    · cases v with
      | number y => exact .inl ⟨y, m₁, hv, ends_pure_iff.mp hr⟩
      | list vs => exact .inr (.inl ⟨vs, m₁, hv, hfault.mp hr⟩)
    · exact .inr (.inr hfails)
  · rintro (⟨y, m₁, hv, rfl⟩ | ⟨vs, m₁, hv, rfl⟩ | hfails)
    · exact .inl ⟨_, m₁, hv, ends_pure_iff.mpr rfl⟩
    · exact .inl ⟨_, m₁, hv, hfault.mpr rfl⟩
    · exact .inr hfails

theorem ends_tested_ok_iff {x : Nat → Eval Value} (hx : Steady x) {b : Bool} :
    Ends (fun n => tested span (x n)) m (.ok b m') ↔ ∃ y, Ends x m (.ok (.number y) m') ∧ b = (y != 0) := by
  rw [ends_tested_iff hx]
  constructor
  · rintro (⟨y, m₁, hy, heq⟩ | ⟨vs, m₁, -, heq⟩ | ⟨halt, m₁, -, heq⟩)
    · cases heq
      exact ⟨y, hy, rfl⟩
    · cases heq
    · cases heq
  · rintro ⟨y, hy, rfl⟩
    exact .inl ⟨y, m', hy, rfl⟩

theorem ends_tested_error_iff {x : Nat → Eval Value} (hx : Steady x) {halt : Halt} :
    Ends (fun n => tested span (x n)) m (.error halt m') ↔
      (∃ vs, Ends x m (.ok (.list vs) m') ∧
        halt = .fault ⟨.type "FILTER" "a number" (Value.list vs).text, some span⟩) ∨ Ends x m (.error halt m') := by
  rw [ends_tested_iff hx]
  constructor
  · rintro (⟨y, m₁, -, heq⟩ | ⟨vs, m₁, hvs, heq⟩ | ⟨halt', m₁, hfails, heq⟩)
    · cases heq
    · cases heq
      exact .inl ⟨vs, hvs, rfl⟩
    · cases heq
      exact .inr hfails
  · rintro (⟨vs, hvs, rfl⟩ | hfails)
    · exact .inr (.inl ⟨vs, m', hvs, rfl⟩)
    · exact .inr (.inr ⟨halt, m', hfails, rfl⟩)

theorem locate_keep (span : Span) (test : Value → Eval Bool) (items : List Value) :
    locate span (keep test items) = keep (fun v => locate span (test v)) items := by
  induction items with
  | nil => rfl
  | cons v rest ih =>
    rw [keep, keep, locate_bind]
    simp only [locate_bind, ih]
    rfl

def sift (span span' : Span) (name : String) (items : List Value) (n : Nat) : Eval (List Value) :=
  keep (fun v => tested span (expr n (callOn span' name v))) items

section
variable {span' : Span}

theorem steady_test (v : Value) : Steady fun n => tested span (expr n (callOn span' name v)) :=
  steady_tested (steady_expr _)

theorem steady_sift (items : List Value) : Steady (sift span span' name items) := steady_keep steady_test items

theorem sift_cons (v : Value) (rest : List Value) : sift span span' name (v :: rest) = fun n =>
    tested span (expr n (callOn span' name v)) >>= fun b => sift span span' name rest n >>= fun others =>
      pure (if b then v :: others else others) := rfl

/-- Calls that all give numbers keep the items of those other than zero. -/
theorem Calls.ends_sift {ys : List Float} (h : Calls span' name items m (ys.map .number) m') :
    Ends (sift span span' name items) m (.ok (kept items ys) m') := by
  generalize hresults : ys.map Value.number = results at h
  induction h generalizing ys with
  | nil =>
    obtain rfl := List.map_eq_nil_iff.mp hresults
    exact ends_pure_iff.mpr rfl
  | cons hx _ ih =>
    obtain ⟨y, ys, rfl, rfl, hrest⟩ := List.map_eq_cons_iff.mp hresults
    rw [sift_cons, kept_cons]
    refine ((ends_tested_ok_iff (steady_expr _)).mpr ⟨y, hx, rfl⟩).bind_iff.mpr ((ih hrest).bind_iff.mpr ?_)
    exact ends_pure_iff.mpr rfl

/-- Behind such calls, one that gives no number is the last. -/
theorem Calls.ends_sift_of_error {before after : List Value} {v : Value} {ys : List Float} {m₂ : Machine} {halt : Halt}
    (h : Calls span' name before m (ys.map .number) m')
    (hv : Ends (fun n => tested span (expr n (callOn span' name v))) m' (.error halt m₂)) :
    Ends (sift span span' name (before ++ v :: after)) m (.error halt m₂) := by
  generalize hresults : ys.map Value.number = results at h
  induction h generalizing ys with
  | nil =>
    rw [List.nil_append, sift_cons]
    exact (steady_test v).ends_bind_iff.mpr (.inr ⟨halt, m₂, hv, rfl⟩)
  | cons hx _ ih =>
    obtain ⟨y, ys, rfl, rfl, hrest⟩ := List.map_eq_cons_iff.mp hresults
    rw [List.cons_append, sift_cons]
    refine ((ends_tested_ok_iff (steady_expr _)).mpr ⟨y, hx, rfl⟩).bind_iff.mpr ?_
    exact (steady_sift _).ends_bind_iff.mpr (.inr ⟨halt, m₂, ih hv hrest, rfl⟩)

/-- A filter ends with the items that it keeps, or with the first call that gives no number. -/
theorem ends_sift_iff {r : EStateM.Result Halt Machine (List Value)} : Ends (sift span span' name items) m r ↔
    (∃ (ys : List Float) (m₁ : Machine), Calls span' name items m (ys.map .number) m₁ ∧ r = .ok (kept items ys) m₁) ∨
      ∃ before v after, ∃ ys : List Float, ∃ m₁ halt m₂, items = before ++ v :: after ∧
        Calls span' name before m (ys.map .number) m₁ ∧
        Ends (fun n => tested span (expr n (callOn span' name v))) m₁ (.error halt m₂) ∧ r = .error halt m₂ := by
  constructor
  · intro h
    induction items generalizing m r with
    | nil =>
      obtain rfl := ends_pure_iff.mp h
      exact .inl ⟨[], m, .nil, rfl⟩
    | cons v rest ih =>
      rw [sift_cons] at h
      rcases (steady_test v).ends_bind_iff.mp h with ⟨b, m₁, hb, hrest⟩ | ⟨halt, m₁, hv, rfl⟩
      · obtain ⟨y, hy, rfl⟩ := (ends_tested_ok_iff (steady_expr _)).mp hb
        rcases (steady_sift rest).ends_bind_iff.mp hrest with ⟨others, m₂, hothers, hr⟩ | ⟨halt, m₂, hfails, rfl⟩
        · obtain rfl := ends_pure_iff.mp hr
          rcases ih hothers with ⟨ys, m₃, hcalls, heq⟩ | ⟨before, w, after, ys, m₃, halt, m₄, -, -, -, heq⟩
          · cases heq
            exact .inl ⟨y :: ys, _, .cons hy hcalls, by rw [kept_cons]⟩
          · cases heq
        · rcases ih hfails with ⟨ys, m₃, -, heq⟩ | ⟨before, w, after, ys, m₃, halt', m₄, rfl, hcalls, hw, heq⟩
          · cases heq
          · exact .inr ⟨v :: before, w, after, y :: ys, m₃, halt', m₄, rfl, .cons hy hcalls, hw, heq⟩
      · exact .inr ⟨[], v, rest, [], m, halt, m₁, rfl, .nil, hv, rfl⟩
  · rintro (⟨ys, m₁, hcalls, rfl⟩ | ⟨before, v, after, ys, m₁, halt, m₂, rfl, hcalls, hv, rfl⟩)
    · exact hcalls.ends_sift
    · exact hcalls.ends_sift_of_error hv

/-- To filter is to make the calls. -/
theorem ends_keep_calls_iff (harity : p.arity = 1) (h : Unreplaced span' name p items m)
    {r : EStateM.Result Halt Machine (List Value)} :
    Ends (fun n => keep (fun v => tested span (invoke (stmt n) p [v])) items) m r ↔
      Ends (sift span span' name items) m r := by
  induction items generalizing m r with
  | nil => exact Iff.rfl
  | cons v rest ih =>
    have hrun : ∀ v, Steady fun n => tested span (invoke (stmt n) p [v]) := fun v => steady_tested (steady_invoke p [v])
    rw [sift_cons]
    refine ends_bind_congr (hrun v) (steady_test v) (fun r => ?_) fun b m₁ hb r => ?_
    · rw [ends_tested_iff (steady_invoke p [v]), ends_tested_iff (steady_expr _)]
      simp only [ends_callOn_iff h.1 harity]
    · obtain ⟨y, hy, -⟩ := (ends_tested_ok_iff (steady_expr _)).mp hb
      exact ends_bind_congr (steady_keep hrun rest) (steady_sift rest) (fun r => ih (h.2 _ m₁ hy))
        fun _ _ _ _ => Iff.rfl

/-- A filter gives the items whose calls give numbers other than zero, or it ends with the first call that fails or
gives a list. -/
theorem ends_filter_iff {r : EStateM.Result Halt Machine Value}
    (hlist : Ends (fun n => expr n e) m₀ (.ok (.list items) m)) (hfound : m.workspace.procedure? name = some p)
    (harity : p.arity = 1) (h : Unreplaced span' name p items m) :
    Ends (fun n => expr n (.traverse span .filter name e)) m₀ r ↔
      (∃ (ys : List Float) (m₁ : Machine), Calls span' name items m (ys.map .number) m₁ ∧
        r = .ok (.list (kept items ys)) m₁) ∨
      ∃ before v after, ∃ ys : List Float, ∃ m₁, items = before ++ v :: after ∧
        Calls span' name before m (ys.map .number) m₁ ∧
        ((∃ vs m₂, Ends (fun n => expr n (callOn span' name v)) m₁ (.ok (.list vs) m₂) ∧
          r = .error (.fault ⟨.type "FILTER" "a number" (Value.list vs).text, some span⟩) m₂) ∨
        ∃ halt m₂, Ends (fun n => expr n (callOn span' name v)) m₁ (.error halt m₂) ∧ r = .error halt m₂) := by
  have hkeep : ∀ n, locate span (traverse (invoke (stmt n)) .filter name (.list items)) m =
      (keep (fun v => tested span (invoke (stmt n) p [v])) items >>= fun vs => pure (Value.list vs)) m := by
    intro n
    refine (locate_congr (traverse_filter hfound harity) span).trans (congrFun ?_ m)
    rw [locate_bind, locate_keep]
    simp only [locate_bind, (Placed.invoke n p _).locate_eq]
    rfl
  have hrun : ∀ v, Steady fun n => tested span (invoke (stmt n) p [v]) := fun v => steady_tested (steady_invoke p [v])
  rw [ends_traverse_iff hlist, ends_congr ⟨0, fun n _ => hkeep n⟩, (steady_keep hrun items).ends_bind_iff]
  simp only [ends_keep_calls_iff harity h, ends_sift_iff, ends_pure_iff]
  constructor
  · rintro (⟨others, m₁, ⟨ys, m₂, hcalls, heq⟩ | ⟨_, _, _, _, _, _, _, -, -, -, heq⟩, rfl⟩ |
      ⟨halt, m₁, ⟨_, _, -, heq⟩ | ⟨before, v, after, ys, m₂, halt', m₃, hitems, hcalls, hv, heq⟩, rfl⟩)
    · cases heq
      exact .inl ⟨ys, _, hcalls, rfl⟩
    · cases heq
    · cases heq
    · cases heq
      refine .inr ⟨before, v, after, ys, m₂, hitems, hcalls, ?_⟩
      rcases (ends_tested_error_iff (steady_expr _)).mp hv with ⟨vs, hvs, rfl⟩ | hfails
      · exact .inl ⟨vs, _, hvs, rfl⟩
      · exact .inr ⟨halt, _, hfails, rfl⟩
  · rintro (⟨ys, m₁, hcalls, rfl⟩ | ⟨before, v, after, ys, m₁, hitems, hcalls, ⟨vs, m₂, hv, rfl⟩ | ⟨halt, m₂, hv, rfl⟩⟩)
    · exact .inl ⟨_, m₁, .inl ⟨ys, m₁, hcalls, rfl⟩, rfl⟩
    · refine .inr ⟨_, m₂, .inr ⟨before, v, after, ys, m₁, _, m₂, hitems, hcalls, ?_, rfl⟩, rfl⟩
      exact (ends_tested_error_iff (steady_expr _)).mpr (.inl ⟨vs, hv, rfl⟩)
    · refine .inr ⟨_, m₂, .inr ⟨before, v, after, ys, m₁, _, m₂, hitems, hcalls, ?_, rfl⟩, rfl⟩
      exact (ends_tested_error_iff (steady_expr _)).mpr (.inr hv)

end

/-- Traversals are calls. Over a list of items and with a procedure of the right number of inputs, `MAP` is the list of
the calls on the items, as long as no call but the last stores another procedure under the name. `FILTER` makes the same
calls and gives the items for which they give numbers other than zero; it ends with the first call that fails or gives a
list. `REDUCE` is the calls on the value so far and the next item, one inside the other, and `APPLY` is one call on all
items. The first call that fails is the last, and its outcome is that of the traversal. -/
theorem traversals_are_calls (span span' : Span) (name : String) (p : Procedure) (e : Expr) (items : List Value)
    (m₀ m : Machine) (hlist : Ends (fun n => expr n e) m₀ (.ok (.list items) m))
    (hfound : m.workspace.procedure? name = some p) :
    (∀ t n, Finished (expr n (.traverse span t name e) m₀) →
      Ends (fun n => expr n (.traverse span t name e)) m₀ (expr n (.traverse span t name e) m₀)) ∧
    (p.arity = 1 → Unreplaced span' name p items m →
      (∀ r, Ends (fun n => expr n (.traverse span .map name e)) m₀ r ↔
        Ends (fun n => expr n (callsOn span' name items)) m r) ∧
      (∀ before v after results m₁ halt m₂, items = before ++ v :: after →
        Ends (fun n => expr n (callsOn span' name before)) m (.ok (.list results) m₁) →
        Ends (fun n => expr n (callOn span' name v)) m₁ (.error halt m₂) →
        Ends (fun n => expr n (.traverse span .map name e)) m₀ (.error halt m₂)) ∧
      ∀ r, Ends (fun n => expr n (.traverse span .filter name e)) m₀ r ↔
        (∃ (ys : List Float) (m₁ : Machine),
          Ends (fun n => expr n (callsOn span' name items)) m (.ok (.list (ys.map .number)) m₁) ∧
          r = .ok (.list (((items.zip ys).filter fun pair => pair.2 != 0).map Prod.fst)) m₁) ∨
        ∃ before v after, ∃ ys : List Float, ∃ m₁, items = before ++ v :: after ∧
          Ends (fun n => expr n (callsOn span' name before)) m (.ok (.list (ys.map .number)) m₁) ∧
          ((∃ vs m₂, Ends (fun n => expr n (callOn span' name v)) m₁ (.ok (.list vs) m₂) ∧
            r = .error (.fault ⟨.type "FILTER" "a number" (Value.list vs).text, some span⟩) m₂) ∨
          ∃ halt m₂, Ends (fun n => expr n (callOn span' name v)) m₁ (.error halt m₂) ∧ r = .error halt m₂)) ∧
    (p.arity = 2 → ∀ v rest, items = v :: rest →
      (∀ r, Ends (fun n => expr n (.traverse span .reduce name e)) m₀ r ↔
        Ends (fun n => expr n (reduction span' name v rest)) m r) ∧
      ∀ before item after acc m₁ halt m₂, rest = before ++ item :: after →
        Ends (fun n => expr n (reduction span' name v before)) m (.ok acc m₁) →
        m₁.workspace.procedure? name = some p →
        Ends (fun n => expr n (.call span' name [acc.constant span', item.constant span'])) m₁ (.error halt m₂) →
        Ends (fun n => expr n (.traverse span .reduce name e)) m₀ (.error halt m₂)) ∧
    (p.arity = items.length → ∀ r, Ends (fun n => expr n (.traverse span .apply name e)) m₀ r ↔
      Ends (fun n => expr n (.call span' name (items.map (Value.constant span')))) m r) := by
  refine ⟨fun t n h => (steady_expr _).ends h, fun harity h =>
    ⟨fun r => ends_map_iff hlist hfound harity h, ?_, ?_⟩, ?_,
    fun harity r => ends_apply_iff hlist hfound harity⟩
  · intro before v after results m₁ halt m₂ hitems hbefore hv
    rw [ends_map_iff hlist hfound harity h, hitems]
    exact (ends_callsOn_iff.mp hbefore).ends_of_error hv
  · intro r
    simp only [ends_callsOn_iff]
    exact ends_filter_iff hlist hfound harity h
  · rintro harity v rest rfl
    refine ⟨fun r => ends_reduce_iff hlist hfound harity, ?_⟩
    intro before item after acc m₁ halt m₂ hrest hbefore hfound₁ hcall
    rw [ends_reduce_iff hlist hfound harity, hrest]
    exact ends_reduction_of_error hfound harity hbefore hfound₁ hcall

/-- Two items, and procedures that output an empty list whatever their inputs are. -/
theorem traversals_are_calls_constant : ∃ (two : Expr) (m₁ m₂ : Machine),
    Ends (fun n => expr n two) m₁ (.ok (.list [.list [], .list []]) m₁) ∧
    Ends (fun n => expr n (.traverse ⟨20, 31⟩ .map "F" two)) m₁ (.ok (.list [.list [], .list []]) m₁) ∧
    Ends (fun n => expr n (.traverse ⟨20, 31⟩ .filter "F" two)) m₁
      (.error (.fault ⟨.type "FILTER" "a number" (Value.list []).text, some ⟨20, 31⟩⟩) m₁) ∧
    Ends (fun n => expr n (.traverse ⟨20, 31⟩ .reduce "G" two)) m₂ (.ok (.list []) m₂) ∧
    Ends (fun n => expr n (.traverse ⟨20, 31⟩ .apply "G" two)) m₂ (.ok (.list []) m₂) := by
  let body := [Stmt.output ⟨9, 18⟩ (.list ⟨16, 18⟩ [])]
  let two := Value.constant ⟨24, 31⟩ (.list [.list [], .list []])
  let m₁ : Machine := { workspace := Workspace.define {} ⟨"F", ["x"], body⟩ }
  let m₂ : Machine := { workspace := Workspace.define {} ⟨"G", ["x", "y"], body⟩ }
  have hinvoke : ∀ name params args m, Ends (fun n => invoke (stmt n) ⟨name, params, body⟩ args) m (.ok (.list []) m) :=
    fun name params args m => ends_succ_iff.mp (ends_succ_iff.mp ⟨by simp [Finished], 0, fun _ _ => rfl⟩)
  have hfound₁ : m₁.workspace.procedure? "F" = some ⟨"F", ["x"], body⟩ := by
    simp [m₁, Workspace.procedure?, Workspace.define, Table.find?_insert]
  have hfound₂ : m₂.workspace.procedure? "G" = some ⟨"G", ["x", "y"], body⟩ := by
    simp [m₂, Workspace.procedure?, Workspace.define, Table.find?_insert]
  have hcall : ∀ v, Ends (fun n => expr n (callOn ⟨20, 31⟩ "F" v)) m₁ (.ok (.list []) m₁) := fun v =>
    (ends_callOn_iff hfound₁ rfl v).mpr (hinvoke _ _ _ _)
  have hkept : Unreplaced ⟨20, 31⟩ "F" ⟨"F", ["x"], body⟩ [.list [], .list []] m₁ := by
    refine ⟨hfound₁, fun x m' hx => ⟨?_, fun _ _ _ => trivial⟩⟩
    cases hx.unique (hcall (.list []))
    exact hfound₁
  obtain ⟨-, hone, -, -⟩ := traversals_are_calls ⟨20, 31⟩ ⟨20, 31⟩ "F" _ two _ _ _ (ends_constant _ _ _) hfound₁
  obtain ⟨-, -, htwo, hall⟩ := traversals_are_calls ⟨20, 31⟩ ⟨20, 31⟩ "G" _ two _ _ _ (ends_constant _ _ _) hfound₂
  obtain ⟨hmap, -, hfilter⟩ := hone rfl hkept
  obtain ⟨hreduce, -⟩ := htwo rfl _ _ rfl
  have hargs : Ends (fun n => expr n (.call ⟨20, 31⟩ "G" ([.list [], .list []].map (Value.constant ⟨20, 31⟩)))) m₂ _ :=
    (ends_call_constants_iff hfound₂ _ rfl).mpr (hinvoke "G" ["x", "y"] _ m₂)
  refine ⟨two, m₁, m₂, ends_constant _ _ _, ?_, ?_, (hreduce _).mpr hargs, (hall rfl _).mpr hargs⟩
  · exact (hmap _).mpr (ends_callsOn_iff.mpr (.cons (hcall _) (.cons (hcall _) .nil)))
  · exact (hfilter _).mpr (.inr ⟨[], _, _, [], m₁, rfl, ends_callsOn_iff.mpr .nil, .inl ⟨[], m₁, hcall _, rfl⟩⟩)

end Eval
end Logo
