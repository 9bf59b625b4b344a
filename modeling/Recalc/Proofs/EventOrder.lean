import Recalc.Host
import Recalc.Proofs.Acyclic
import Recalc.Proofs.Confluence
import Recalc.Proofs.Traversal

/-!
# The order of events

Listeners are told of recomputed symbols from below: of a symbol only after the symbols that it
depends on. Written out without any memory, that is the **post-order** of a symbol: the post-orders
of the names that its formula depends on, one behind the other, and then the symbol itself. A
symbol without formula is never told of.

A solve tells of the post-order with repetitions removed, as far as it was stale. If it fails, then
at a symbol of that list, and it has told of what stands before that symbol.

Going through a list with `settle`, the symbols still to be told of are the `pending` ones. One
step either takes nothing from them, or tells of the first, or stops at the first.
-/

namespace Recalc

/-- Removing repetitions and removing elements can be done in either order. -/
theorem eraseDups_filter {α : Type} [BEq α] [LawfulBEq α] (p : α → Bool) (xs : List α) :
    (xs.filter p).eraseDups = xs.eraseDups.filter p := by
  match xs with
  | [] => rfl
  | x :: xs =>
    have ih := eraseDups_filter p (xs.filter fun y => !y == x)
    rw [List.eraseDups_cons]
    by_cases hx : p x = true
    · rw [List.filter_cons_of_pos hx, List.filter_cons_of_pos hx, List.eraseDups_cons, ← ih,
        List.filter_comm]
    · -- the repetitions of `x` go with `x`
      have hrest : (xs.filter fun y => !y == x).filter p = xs.filter p := by
        rw [List.filter_filter]
        refine List.filter_congr ?_
        intro y _
        by_cases hyx : y = x
        · simp [hyx, hx]
        · simp [hyx]
      rw [List.filter_cons_of_neg hx, List.filter_cons_of_neg hx, ← ih, hrest]
termination_by xs.length
decreasing_by exact Nat.lt_succ_of_le (List.length_filter_le _ xs)

namespace Formulas

variable {fs : Formulas}

/-- The formula symbols that `x` depends on, each behind those that it depends on and as often as
there are ways to it, and then `x` if it has a formula. -/
def postOrder (fs : Formulas) (x : String) : List String :=
  (fs.unfolding fs.size x).filter fs.contains

theorem contains_eq_true {x : String} {f : Formula} (h : fs[x]? = some f) :
    fs.contains x = true := by
  rw [Std.ExtTreeMap.contains_eq_isSome_getElem?, h]
  rfl

theorem contains_eq_false {x : String} (h : fs[x]? = none) : fs.contains x = false := by
  rw [Std.ExtTreeMap.contains_eq_isSome_getElem?, h]
  rfl

theorem postOrder_of_none {x : String} (h : fs[x]? = none) : fs.postOrder x = [] := by
  rw [postOrder, unfolding_of_none h, List.filter_cons_of_neg (by simp [contains_eq_false h])]
  rfl

/-- On a grounded name the number of formulas is levels enough, so nothing is cut off. -/
theorem postOrder_of_some {x : String} {f : Formula} (hg : fs.Grounded x) (h : fs[x]? = some f) :
    fs.postOrder x = f.dependsOn.flatMap fs.postOrder ++ [x] := by
  obtain ⟨n, hn, hroom⟩ := (HasRoom.start fs).enter h List.not_mem_nil
  have hdeps : ∀ d ∈ f.dependsOn, (fs.unfolding n d).filter fs.contains = fs.postOrder d := by
    intro d hd
    have hxd : fs.Edge x d := edge_of_some h hd
    have hfull : fs.unfolding fs.size d = fs.unfolding n d :=
      unfolding_eq_of_le n (hg.of_edge hxd) hroom
        (reaches_of_mem_path (fun _ hz => absurd hz List.not_mem_nil) hxd) (by omega)
    rw [postOrder, hfull]
  rw [postOrder, hn, unfolding_of_some h, List.filter_append, List.filter_flatMap,
    List.flatMap_congr hdeps, List.filter_cons_of_pos (contains_eq_true h)]
  rfl

end Formulas

/-! ## What is still to be told of -/

namespace Pass

/-- The stale formula symbols of a list, each once. -/
def pending (fs : Formulas) (stale : NameSet) (xs : List String) : List String :=
  (xs.filter fun y => fs.contains y && stale.contains y).eraseDups

variable {fs : Formulas} {stale : NameSet} {x : String} {xs : List String}

/-- What has no formula or is not stale is not pending. -/
theorem pending_cons_of_not (h : fs[x]? = none ∨ x ∉ stale) :
    pending fs stale (x :: xs) = pending fs stale xs := by
  have hx : (fs.contains x && stale.contains x) = false := by
    rcases h with hf | hs
    · rw [Formulas.contains_eq_false hf, Bool.false_and]
    · rw [Std.ExtTreeSet.mem_iff_contains, Bool.not_eq_true] at hs
      rw [hs, Bool.and_false]
  unfold pending
  rw [List.filter_cons, hx]
  rfl

theorem contains_erase_eq {y : String} (h : y ≠ x) :
    (stale.erase x).contains y = stale.contains y := by
  rw [Bool.eq_iff_iff, ← Std.ExtTreeSet.mem_iff_contains, ← Std.ExtTreeSet.mem_iff_contains,
    NameSet.mem_erase_iff]
  exact and_iff_right h

/-- A stale formula symbol is pending in front, and not again behind. -/
theorem pending_cons {f : Formula} (hf : fs[x]? = some f) (hx : x ∈ stale) :
    pending fs stale (x :: xs) = x :: pending fs (stale.erase x) xs := by
  have hhead : (fs.contains x && stale.contains x) = true := by
    rw [Formulas.contains_eq_true hf, Std.ExtTreeSet.mem_iff_contains.1 hx]
    rfl
  unfold pending
  rw [List.filter_cons, if_pos hhead, List.eraseDups_cons, List.filter_filter]
  congr 2
  refine List.filter_congr ?_
  intro y _
  by_cases hyx : y = x
  · have hgone : (stale.erase x).contains x = false := by simp
    rw [hyx, hgone, Bool.and_false, beq_self_eq_true, Bool.not_true, Bool.false_and]
  · have hne : (y == x) = false := beq_eq_false_iff_ne.mpr hyx
    rw [contains_erase_eq hyx, hne, Bool.not_false, Bool.true_and]

/-- Dropping a symbol without formula from the stale ones changes nothing. -/
theorem pending_erase_of_none (hf : fs[x]? = none) :
    pending fs (stale.erase x) xs = pending fs stale xs := by
  unfold pending
  congr 1
  refine List.filter_congr ?_
  intro y _
  by_cases hyx : y = x
  · rw [hyx, Formulas.contains_eq_false hf]
    rfl
  · rw [contains_erase_eq hyx]

variable {H : Type} [HostLibrary H] {tables : Tables H} {depth : Nat} {p q : Pass H}

/-- What is finished stays current. -/
theorem Settling.current_of_finished {r : Step H} (h : Settling tables depth fs p x r)
    (hp : ∀ y ∈ p.finished, y ∉ p.stale) : ∀ y ∈ r.1.finished, y ∉ r.1.stale := by
  have hinsert : ∀ stale : NameSet, x ∉ stale → (∀ y ∈ stale, y ∈ p.stale) →
      ∀ y ∈ p.finished.insert x, y ∉ stale := by
    intro stale hx hsub y hy hs
    rcases NameSet.mem_insert_iff.1 hy with rfl | hy
    · exact hx hs
    · exact hp y hy (hsub y hs)
  have herase : x ∉ p.stale.erase x := fun h => (NameSet.mem_erase_iff.1 h).1 rfl
  have hsub : ∀ y ∈ p.stale.erase x, y ∈ p.stale := fun y hy => (NameSet.mem_erase_iff.1 hy).2
  cases h with
  | done => exact hp
  | leaf => exact hinsert _ herase hsub
  | current _ hx => exact hinsert _ hx fun _ hy => hy
  | recomputed => exact hinsert _ herase hsub
  | stopped => exact hp

/-- A step that goes on tells of what it takes from the front of the pending symbols. -/
theorem Settling.tells (h : Settling tables depth fs p x (q, .value ()))
    (hp : ∀ y ∈ p.finished, y ∉ p.stale) (xs : List String) :
    ∃ told, pending fs p.stale (x :: xs) = told ++ pending fs q.stale xs ∧
      q.recomputed = p.recomputed ++ told := by
  cases h with
  | done hx => exact ⟨[], pending_cons_of_not (.inr (hp x hx)), (List.append_nil _).symm⟩
  | leaf hf =>
    refine ⟨[], ?_, (List.append_nil _).symm⟩
    exact (pending_cons_of_not (.inl hf)).trans (pending_erase_of_none hf).symm
  | current _ hx => exact ⟨[], pending_cons_of_not (.inr hx), (List.append_nil _).symm⟩
  | recomputed hf hx _ => exact ⟨[x], pending_cons hf hx, rfl⟩
  | stopped _ _ hstops => cases hstops

/-- A step that does not go on is at the first of the pending symbols, and changes nothing. -/
theorem Settling.stops {o : Outcome SolverError Unit} (h : Settling tables depth fs p x (q, o))
    (ho : o ≠ .value ()) (xs : List String) :
    ∃ f, pending fs p.stale (x :: xs) = x :: pending fs (p.stale.erase x) xs ∧
      fs[x]? = some f ∧ x ∈ q.stale ∧ q = p ∧ StopsAt tables depth q f o := by
  cases h with
  | stopped hf hx hstops => exact ⟨_, pending_cons hf hx, hf, hx, rfl, hstops⟩
  | done => exact absurd rfl ho
  | leaf => exact absurd rfl ho
  | current => exact absurd rfl ho
  | recomputed => exact absurd rfl ho

/-- What a pass that goes through a list has told of when it ends. -/
inductive Tells (tables : Tables H) (depth : Nat) (fs : Formulas) (p : Pass H) (xs : List String) :
    Step H → Prop where
  /-- It came to the end of the list and has told of all that was pending. -/
  | all {q : Pass H} (recomputed : q.recomputed = p.recomputed ++ pending fs p.stale xs) :
      Tells tables depth fs p xs (q, .value ())
  /-- It stopped where a pending formula did, and has told of those before it. -/
  | upTo {q : Pass H} {o : Outcome SolverError Unit} {pre post : List String} {y : String}
      {f : Formula} (split : pending fs p.stale xs = pre ++ y :: post) (some : fs[y]? = some f)
      (stale : y ∈ q.stale) (recomputed : q.recomputed = p.recomputed ++ pre)
      (stops : StopsAt tables depth q f o) : Tells tables depth fs p xs (q, o)

/-- **Going through a list tells of what is pending in it, up to where it stops.** -/
theorem settleEach_tells (xs : List String) (p : Pass H) (hp : ∀ y ∈ p.finished, y ∉ p.stale) :
    Tells tables depth fs p xs (refreshEach (settle tables depth fs) xs p) := by
  induction xs generalizing p with
  | nil => exact .all (List.append_nil _).symm
  | cons x xs ih =>
    have hstep := settle_cases tables depth fs x p
    rcases hr : settle tables depth fs x p with ⟨q, o⟩
    rw [hr] at hstep
    by_cases ho : o = .value ()
    · subst ho
      obtain ⟨told, hpending, hq⟩ := hstep.tells hp xs
      have hrest := ih q (hstep.current_of_finished hp)
      rw [refreshEach_of_value (by rw [hr]), hr]
      -- what the rest of the list tells of comes behind what this step told of
      generalize refreshEach (settle tables depth fs) xs q = r at hrest
      cases hrest with
      | all hall => exact .all (by rw [hall, hq, hpending, List.append_assoc])
      | @upTo _ _ pre post y f hsplit hf hy hpre hstops =>
        have hsplit' : pending fs p.stale (x :: xs) = (told ++ pre) ++ y :: post := by
          rw [hpending, hsplit, List.append_assoc]
        exact .upTo hsplit' hf hy (by rw [hpre, hq, List.append_assoc]) hstops
    · obtain ⟨f, hpending, hf, hx, hqp, hstops⟩ := hstep.stops ho xs
      rw [refreshEach_of_stop (by rw [hr]; exact ho), hr]
      have hsplit : pending fs p.stale (x :: xs) = [] ++ x :: pending fs (p.stale.erase x) xs :=
        hpending
      exact .upTo hsplit hf hx (by rw [hqp, List.append_nil]) hstops

end Pass

namespace Solver

variable {H : Type}

/-- What is pending when a solve begins is the post-order without repetitions, as far as it is
stale. -/
theorem pending_eq_filter (s : Solver H) (x : String) :
    Pass.pending s.formulas s.stale (s.formulas.unfolding s.formulas.size x) =
      (s.formulas.postOrder x).eraseDups.filter s.isStale := by
  rw [Pass.pending, Formulas.postOrder, ← eraseDups_filter, List.filter_filter]
  congr 1
  refine List.filter_congr ?_
  intro y _
  exact Bool.and_comm _ _

/-- A symbol is grounded if neither it nor anything that it depends on lies on a circle or calls
itself. -/
theorem grounded_of_no_circle {s : Solver H} {x : String}
    (h : ∀ y, y = x ∨ y ∈ s.dependencies x →
      ¬ s.formulas.Reaches y y ∧ ∀ f, s.formula? y = some f → f.isSelfCalling = false) :
    s.formulas.Grounded x := by
  refine Formulas.grounded_of_no_circle s.formulas.size (.start _)
    (fun _ hz => absurd hz List.not_mem_nil) ?_
  intro y hy
  exact h y (Formulas.eq_or_mem_dependencies_iff.2 hy)

variable [HostLibrary H] {settings : Settings} {depth : Nat}

/-- The pass for a grounded symbol tells of what is pending below it. -/
theorem pass_tells {s : Solver H} {x : String} (hg : s.formulas.Grounded x) (tables : Tables H)
    (depth : Nat) : Pass.Tells tables depth s.formulas (.start s.table s.stale)
      (s.formulas.unfolding s.formulas.size x) (s.pass tables depth x) := by
  rw [pass_eq_settleEach hg]
  exact Pass.settleEach_tells _ _ fun _ hy => absurd hy Std.ExtTreeSet.not_mem_empty

/--
**Events come in post-order.**

Let `x` be a known symbol of a reachable solver that announces, where neither `x` nor anything that
it depends on lies on a circle or calls itself.

* The post-order of such a symbol is empty if it has no formula, and otherwise the post-orders of
  the names that its formula depends on, in order, and then the symbol itself.
* If solving `x` succeeds, each listener is told of the post-order of `x`, without what stands in it
  again and what was not stale, and each symbol is told to all listeners before the next.
* If it fails, then where the body of a symbol `q` of this list fails, and what has been told of is
  the part of the list before `q`. That part is current then, and `q` is still stale.
-/
theorem events_follow_postOrder {s : Solver H} (h : Reachable settings depth s)
    (hannounces : settings.announces = true) {x : String} (hx : s.contains x = true)
    (hcone : ∀ y, y = x ∨ y ∈ s.dependencies x →
      ¬ s.formulas.Reaches y y ∧ ∀ f, s.formula? y = some f → f.isSelfCalling = false)
    (tables : Tables H) (depth' : Nat) {reply : Reply H (Value H)}
    (hreply : s.solve tables depth' x = reply) :
    (∀ y, y = x ∨ y ∈ s.dependencies x →
      (s.formula? y = none → s.formulas.postOrder y = []) ∧
      ∀ f, s.formula? y = some f →
        s.formulas.postOrder y = f.dependsOn.flatMap s.formulas.postOrder ++ [y]) ∧
    (∀ v, reply.answer = .value v →
      reply.events = ((s.formulas.postOrder x).eraseDups.filter s.isStale).flatMap
        fun y => (List.range s.listeners).map fun i => ⟨i, y⟩) ∧
    (∀ e, reply.answer = .error e → ∃ before q after f cause,
      (s.formulas.postOrder x).eraseDups.filter s.isStale = before ++ q :: after ∧
      s.formula? q = some f ∧ f.isFunction = false ∧
      f.body.eval (tables.put reply.solver.table) depth' ⟨[], reply.solver.table⟩ = .error cause ∧
      e = .formula cause ∧ reply.solver.isStale q = true ∧
      (∀ y ∈ before, reply.solver.isStale y = false) ∧
      reply.events = before.flatMap fun y => (List.range s.listeners).map fun i => ⟨i, y⟩) := by
  have hg := grounded_of_no_circle hcone
  have hevents : ∀ xs, s.eventsFor xs =
      xs.flatMap fun y => (List.range s.listeners).map fun i => ⟨i, y⟩ := by
    intro xs
    rw [eventsFor, h.settings_eq, if_pos hannounces]
  have htells := pass_tells hg tables depth'
  have hsolve := solve_eq_pass h.marks tables depth' hx
  subst hreply
  refine ⟨?unfolded, ?value, ?error⟩
  case unfolded =>
    intro y hy
    refine ⟨Formulas.postOrder_of_none, ?_⟩
    intro f hf
    rcases Formulas.eq_or_mem_dependencies_iff.1 hy with rfl | hxy
    · exact Formulas.postOrder_of_some hg hf
    · exact Formulas.postOrder_of_some (hg.of_reaches hxy) hf
  case value =>
    intro v hv
    have hpass := (pass_of_solved h.marks hv).2
    rw [hsolve, hevents, ← pending_eq_filter]
    generalize s.pass tables depth' x = r at htells hpass
    cases htells with
    | all hall => rw [hall]; rfl
    | upTo _ _ _ _ hstops =>
      -- a pass that ends with a value has not stopped at a formula
      dsimp only at hpass
      subst hpass
      cases hstops
  case error =>
    intro e he
    have hpass := pass_of_failed h.marks hx he
    obtain ⟨xs, hxs, _, hcurrent⟩ := (s.pass_progress tables depth' x).recomputed_eq
    rw [hsolve, hevents, ← pending_eq_filter]
    generalize s.pass tables depth' x = r at htells hpass hxs hcurrent
    cases htells with
    | all => cases hpass
    | @upTo p o before after q f hsplit hf hq hbefore hstops =>
      dsimp only at hpass
      subst hpass
      cases hstops with
      | @error cause ha =>
        obtain ⟨hfun, heval⟩ := Formula.assignIn_eq_error ha
        have hsame : xs = before := hxs.symm.trans hbefore
        refine ⟨before, q, after, f, cause, hsplit, hf, hfun, heval, rfl, isStale_iff.2 hq, ?_, ?_⟩
        · intro y hy
          exact isStale_eq_false.2 (hcurrent y (hsame ▸ hy)).2
        · rw [hbefore]
          rfl

/-- A diamond under two listeners, with a formula that fails on top and one branch solved. -/
def diamond : Solver StandardHost :=
  performAll .empty 8 (listen (listen (.empty {} 0)))
    [.define "b = a + 1", .define "c = a * 2", .define "d = c + b", .define "e = d(b)",
      .assign "a" (.number 1), .solve "b"]

theorem events_follow_postOrder_diamond :
    (diamond.solve .empty 8 "d").events = [⟨0, "c"⟩, ⟨1, "c"⟩, ⟨0, "d"⟩, ⟨1, "d"⟩] ∧
    diamond.formulas.postOrder "e" = ["c", "b", "d", "b", "e"] ∧
    ∃ before q after, ["c", "d", "e"] = before ++ q :: after ∧
      (diamond.solve .empty 8 "e").events =
        before.flatMap fun y => (List.range diamond.listeners).map fun i => ⟨i, y⟩ := by
  have h : Reachable {} 8 diamond :=
    .performAll .empty _ (.listen (.listen (.empty 0))) (by decide +kernel)
  have hfree := h.circleFree rfl
  have hcone : ∀ x y, y = x ∨ y ∈ diamond.dependencies x →
      ¬ diamond.formulas.Reaches y y ∧
        ∀ f, diamond.formula? y = some f → f.isSelfCalling = false :=
    fun x y _ => ⟨hfree.acyclic y, hfree.calm y⟩
  obtain ⟨_, hvalue, _⟩ :=
    events_follow_postOrder h rfl (by decide +kernel) (hcone "d") .empty 8 rfl
  obtain ⟨_, _, herror⟩ :=
    events_follow_postOrder h rfl (by decide +kernel) (hcone "e") .empty 8 rfl
  have hd : (diamond.solve .empty 8 "d").answer = .value (.number 4) := by decide +kernel
  have he : (diamond.solve .empty 8 "e").answer = .error (.formula (.notCallable "d")) := by
    decide +kernel
  obtain ⟨before, q, after, _, _, hsplit, _, _, _, _, _, _, hevents⟩ := herror _ he
  have hlist : (diamond.formulas.postOrder "e").eraseDups.filter diamond.isStale =
      ["c", "d", "e"] := by decide +kernel
  refine ⟨(hvalue _ hd).trans (by decide +kernel), by decide +kernel, before, q, after,
    hlist.symm.trans hsplit, hevents⟩

end Solver

end Recalc
