import Datalog.Proofs.Engine.Accounting
import Datalog.Proofs.Saturation.Restriction

/-!
# What range restriction decides

A rule that is not range-restricted can be resolved like any other, but it never concludes a ground
atom, whatever becomes known. Leaving all these rules out of what is pushed to an engine changes
nothing about its facts, not even their order. Among the other rules every conclusion is ground, so
that nothing is ever dropped. A warning therefore is about something that was pushed: a rule that
comes to nothing, or an atom that is no fact.

## Main definitions

* `Item.isSafe`, `Engine.Call.isSafe` — atoms that are pushed are ground, and rules range-restricted
* `Engine.reports` — what is reported during some calls
* `Program.restrict`, `Engine.Call.restricted?` — what is pushed without the other rules

## Main results

* `Engine.reports_no_warning_iff` — there is no warning exactly if everything that is pushed is safe
* `Engine.known_of_concluded` — no conclusion is dropped if the pushed rules are range-restricted
* `Engine.knowledge_restricted` — what is known if the other rules are left out
* `Engine.range_restriction_decides` — all this, and what it says about a single rule
-/

namespace Datalog

/-- The item is a ground atom or a range-restricted rule. -/
def Item.isSafe : Item → Bool
  | .fact a => a.isGround
  | .rule r => r.isRangeRestricted

theorem Item.isRestricted_of_isSafe {item : Item} (h : item.isSafe = true) :
    item.isRestricted = true := by
  cases item with
  | fact a => rfl
  | rule r => exact h

/-- The program without the rules that are not range-restricted. -/
def Program.restrict (p : Program) : Program :=
  { p with rules := p.rules.filter Rule.isRangeRestricted }

/-! ### Warnings -/

namespace Knowledge

/-- Neither what is known nor what waits calls for a warning. -/
structure Safe (k : Knowledge) (agenda : List Item) : Prop where
  /-- Registers and indices are in step. -/
  coherent : k.Coherent
  /-- Known rules are range-restricted. -/
  rules : ∀ r ∈ k.rules, r.isRangeRestricted = true
  /-- Waiting items are safe. -/
  agenda : ∀ item ∈ agenda, item.isSafe = true

theorem safe_empty : Safe empty [] where
  coherent := coherent_empty
  rules := by simp [empty]
  agenda := by simp

variable {k k' : Knowledge} {item : Item} {rest : List Item} {derived : List Rule} {event : Event}

theorem Safe.outcome (hk : k.Safe (item :: rest)) (h : Outcome k item k' derived) :
    k'.Safe (derived.map Item.rule ++ rest) := by
  have hcoherent := hk.coherent.outcome h
  have hrules : ∀ r ∈ k'.rules, r.isRangeRestricted = true := by
    cases h with
    | newRule r hitem =>
      subst hitem
      have hr : r.isRangeRestricted = true := hk.agenda (.rule r) List.mem_cons_self
      exact List.forall_mem_append.mpr ⟨hk.rules, by simpa using hr⟩
    | _ => exact hk.rules
  refine ⟨hcoherent, hrules, List.forall_mem_append.mpr ⟨List.forall_mem_map.mpr ?_, ?_⟩⟩
  · intro s hs
    obtain ⟨r, hr, a, ha, hresolvent⟩ := h.exists_resolvent hk.coherent hs
    exact (hresolvent.isRangeRestricted_eq (hcoherent.ground a ha)).trans (hrules r hr)
  · exact fun other hother => hk.agenda other (List.mem_cons_of_mem _ hother)

theorem severity_of_mem_registerFact {a : Atom} (ha : a.isGround = true)
    (h : event ∈ (k.registerFact a).events) : event.severity = .trace := by
  rw [registerFact, if_pos ha] at h
  split at h
  · simp at h
  · rw [List.mem_singleton.mp h]
    rfl

/-- Registering a safe item reports details only. -/
theorem severity_of_mem_register (hitem : item.isSafe = true)
    (h : event ∈ (k.register item).events) : event.severity = .trace := by
  cases item with
  | fact a => exact severity_of_mem_registerFact hitem h
  | rule r =>
    have hr : r.isRangeRestricted = true := hitem
    rw [register, registerRule] at h
    split at h
    · rename_i hbody
      refine severity_of_mem_registerFact ?_ h
      rwa [← Rule.isRangeRestricted_of_body_eq_nil (Rule.isFact_iff.mp hbody)]
    split at h
    · simp at h
    · rw [List.mem_singleton.mp h]
      rfl

end Knowledge

/-- What has been reported stays reported. -/
theorem mem_events_saturate {run : Run} {event : Event} (h : event ∈ run.events)
    (agenda : List Item) : event ∈ (saturate run agenda).events := by
  rw [saturate_eq_resume]
  exact Array.mem_append.mpr (Or.inl h)

/-- A waiting atom that is not ground is reported to be dropped. -/
theorem droppedFact_mem_events_saturate (run : Run) (hk : run.knowledge.Coherent)
    {agenda : List Item} {a : Atom} (ha : a.isGround = false) (h : .fact a ∈ agenda) :
    .droppedFact a ∈ (saturate run agenda).events := by
  fun_induction saturate run agenda with
  | case1 run => simp at h
  | case2 run item rest registration ih =>
    rcases List.mem_cons.mp h with rfl | h
    · apply mem_events_saturate
      have hnew : a ∉ run.knowledge.facts := fun hknown => by simp [hk.ground a hknown] at ha
      simp [Run.after, registration, Knowledge.register, Knowledge.registerFact, hnew, ha]
    · exact ih (hk.outcome (run.knowledge.register_cases item)) (List.mem_append_right _ h)

namespace Engine

/-- Everything that the call pushes is safe. -/
def Call.isSafe (call : Call) : Bool := call.items.all Item.isSafe

/-- What is reported during some calls, one after the other. -/
def reports (e : Engine) : List Call → List Event
  | [] => []
  | call :: rest => (e.apply call).events ++ (e.apply call).engine.reports rest

variable {e : Engine} {call : Call} {calls : List Call}

theorem Call.isSafe_iff : call.isSafe = true ↔ ∀ item ∈ call.items, item.isSafe = true :=
  List.all_eq_true

/-- A call pushes onto an engine that is as safe as the one it was made on. -/
theorem safe_target (h : e.knowledge.Safe []) (call : Call) :
    (call.target e).knowledge.Safe [] := by
  cases call with
  | restart p => exact Knowledge.safe_empty
  | _ => exact h

theorem safe_worklist (h : e.knowledge.Safe []) (hcall : call.isSafe = true) :
    (call.target e).knowledge.Safe call.items :=
  ⟨(safe_target h call).coherent, (safe_target h call).rules, Call.isSafe_iff.mp hcall⟩

theorem safe_apply (h : e.knowledge.Safe []) (hcall : call.isSafe = true) :
    (e.apply call).engine.knowledge.Safe [] := by
  rw [apply_eq, push_engine]
  exact saturate_induction (P := Knowledge.Safe)
    (fun k item _ hk => hk.outcome (k.register_cases item)) (safe_worklist h hcall)

/-- The work on safe items reports details only. -/
theorem severity_of_mem_work (h : e.knowledge.Safe []) (hcall : call.isSafe = true) {event : Event}
    (hevent : event ∈ ((call.target e).work call.items).events.toList) : event.severity = .trace :=
  saturate_events_induction (P := Knowledge.Safe)
    (fun k item _ hk => hk.outcome (k.register_cases item))
    (fun _ item _ hk _ => Knowledge.severity_of_mem_register (hk.agenda item List.mem_cons_self))
    (safe_worklist h hcall) (by simp) event (Array.mem_toList_iff.mp hevent)

theorem severity_of_mem_announcement {event : Event} (h : event ∈ call.announcement) :
    event.severity = .debug := by
  cases call with
  | restart p => exact List.mem_singleton.mp h ▸ rfl
  | pushProgram p => exact List.mem_singleton.mp h ▸ rfl
  | _ => simp [Call.announcement] at h

/-- While everything known is safe, a call leads to a warning exactly if it pushes something that is
not safe. -/
theorem apply_no_warning_iff (h : e.knowledge.Safe []) :
    (∀ event ∈ (e.apply call).events, event.severity ≠ .warn) ↔ call.isSafe = true := by
  rw [apply_eq, push_events]
  constructor
  · intro hevents
    refine Call.isSafe_iff.mpr fun item hitem => ?_
    by_contra hunsafe
    cases item with
    | fact a =>
      have hdropped := droppedFact_mem_events_saturate { knowledge := (call.target e).knowledge }
        (safe_target h call).coherent (Bool.eq_false_of_not_eq_true hunsafe) hitem
      exact hevents (.droppedFact a) (by simp [work, hdropped]) rfl
    | rule r =>
      have hwarning : .notRangeRestricted r ∈ call.items.filterMap warning? :=
        mem_warnings_iff.mpr ⟨r, hitem, Bool.eq_false_of_not_eq_true hunsafe, rfl⟩
      exact hevents (.notRangeRestricted r) (by simp [hwarning]) rfl
  · intro hcall event hevent
    simp only [List.mem_append, List.mem_singleton, or_assoc] at hevent
    rcases hevent with hevent | hevent | hevent | rfl
    · simp [severity_of_mem_announcement hevent]
    · obtain ⟨r, hitem, hr, -⟩ := mem_warnings_iff.mp hevent
      have hsafe : r.isRangeRestricted = true := Call.isSafe_iff.mp hcall _ hitem
      simp [hsafe] at hr
    · simp [severity_of_mem_work h hcall hevent]
    · exact Severity.noConfusion

/-- There is no warning exactly if everything that is pushed is safe. -/
theorem reports_no_warning_iff (h : e.knowledge.Safe []) :
    (∀ event ∈ e.reports calls, event.severity ≠ .warn) ↔ ∀ call ∈ calls, call.isSafe = true := by
  induction calls generalizing e with
  | nil => simp [reports]
  | cons call rest ih =>
    rw [reports, List.forall_mem_append, List.forall_mem_cons, apply_no_warning_iff h]
    exact and_congr_right fun hcall => ih (safe_apply h hcall)

/-! ### Leaving rules out -/

/-- The call without the rules that are not range-restricted. Nothing is left of a call that pushes
such a rule alone. -/
def Call.restricted? : Call → Option Call
  | .restart p => some (.restart p.restrict)
  | .pushProgram p => some (.pushProgram p.restrict)
  | .pushRule r => if r.isRangeRestricted then some (.pushRule r) else none
  | .pushRules rs => some (.pushRules (rs.filter Rule.isRangeRestricted))
  | .pushFact a => some (.pushFact a)
  | .pushFacts as => some (.pushFacts as)

theorem items_restrict (p : Program) : p.restrict.items = p.items.filter Item.isRestricted := by
  rw [Program.items, Program.items, List.filter_append, filter_isRestricted_rules,
    filter_isRestricted_facts]
  rfl

/-- Of what counts after a call, the restricted items are those that count if rules are left out. -/
theorem filter_extend (pushed : List Item) (call : Call) :
    (call.extend pushed).filter Item.isRestricted =
      call.restricted?.toList.foldl Call.extend (pushed.filter Item.isRestricted) := by
  cases call with
  | restart p => exact (items_restrict p).symm
  | pushProgram p => simp [Call.extend, Call.items, Call.restricted?, items_restrict]
  | pushRule r =>
    cases hr : r.isRangeRestricted <;>
      simp [Call.extend, Call.items, Call.restricted?, Item.isRestricted, hr]
  | pushRules rs => simp [Call.extend, Call.items, Call.restricted?, filter_isRestricted_rules]
  | pushFact a => simp [Call.extend, Call.items, Call.restricted?, Item.isRestricted]
  | pushFacts as => simp [Call.extend, Call.items, Call.restricted?, filter_isRestricted_facts]

theorem pushedItems_restricted (calls : List Call) :
    pushedItems (calls.filterMap Call.restricted?) =
      (pushedItems calls).filter Item.isRestricted := by
  induction calls using List.reverseRecOn with
  | nil => rfl
  | append_singleton calls call ih =>
    rw [pushedItems_append_singleton, filter_extend, ← ih, List.filterMap_append, pushedItems,
      pushedItems, List.foldl_append]
    cases h : call.restricted? <;> simp [h]

/-- If the rules that are not range-restricted are left out of what is pushed, then they and what they
were resolved to are left out of what is known, and nothing else changes. -/
theorem knowledge_restricted (calls : List Call) :
    (empty.applyAll (calls.filterMap Call.restricted?)).knowledge =
      (empty.applyAll calls).knowledge.restrict := by
  rw [knowledge_applyAll, knowledge_applyAll, pushedItems_restricted]
  exact saturate_restrict _ _ Knowledge.coherent_empty _ rfl

theorem isRangeRestricted_of_known (h : ∀ item ∈ pushedItems calls, item.isRestricted = true)
    {r : Rule} (hr : r ∈ (empty.applyAll calls).knowledge.rules) : r.isRangeRestricted = true := by
  -- Nothing was left out of what is pushed, so nothing is left out of what is known.
  have hsame := knowledge_restricted calls
  rw [knowledge_applyAll, pushedItems_restricted, List.filter_eq_self.mpr h,
    ← knowledge_applyAll] at hsame
  rw [hsame] at hr
  exact (List.mem_filter.mp hr).2

/-! ### Conclusions -/

/-- What is put on the stack is left of a known rule by a known fact. -/
theorem exists_resolvent_of_mem_yielded {s : Rule} (h : .rule s ∈ (ledgerOf calls).yielded) :
    ∃ r ∈ (empty.applyAll calls).knowledge.rules, ∃ a ∈ (empty.applyAll calls).knowledge.facts,
      r.Resolvent a s := by
  rw [← (balances_ledgerOf calls).yielded.mem_iff, engine_ledgerOf] at h
  obtain ⟨s', hs', hsame⟩ := List.mem_map.mp h
  obtain rfl := Item.rule.inj hsame
  obtain ⟨m, hm, rfl⟩ := List.mem_map.mp hs'
  obtain ⟨hr, ha, p, hp, hsignature, hunify⟩ := Knowledge.mem_meetings.mp hm
  refine ⟨m.rule, hr, m.fact, ha, (p, m.position), List.mem_zipIdx_iff_getElem?.mpr hp, ?_⟩
  rw [Rule.resolveWith?, if_pos hsignature, hunify]
  rfl

/-- If the pushed rules are range-restricted, every conclusion that is put on the stack becomes known.
-/
theorem known_of_concluded (h : ∀ item ∈ pushedItems calls, item.isRestricted = true) {a : Atom}
    (ha : .rule ⟨a, []⟩ ∈ (ledgerOf calls).yielded) : a ∈ (empty.applyAll calls).facts := by
  have hclosure := isClosure_applyAll calls
  obtain ⟨r, hr, b, hb, hresolvent⟩ := exists_resolvent_of_mem_yielded ha
  have hground : a.isGround = true := by
    have hrestricted := hresolvent.isRangeRestricted_eq (hclosure.pending.coherent.ground b hb)
    rwa [isRangeRestricted_of_known h hr, Rule.isRangeRestricted_of_body_eq_nil rfl] at hrestricted
  have hsettled := (hclosure.pending.resolvents r hr b hb _ hresolvent).resolve_right
    List.not_mem_nil
  exact hclosure.mem_listed_iff.mpr
    (hsettled.fact a (Item.statement?_rule_eq_some_iff.mpr rfl) hground)

theorem exists_call_of_mem_pushedItems {item : Item} (h : item ∈ pushedItems calls) :
    ∃ call ∈ calls, item ∈ call.items := by
  induction calls using List.reverseRecOn with
  | nil => simp [pushedItems] at h
  | append_singleton calls call ih =>
    rw [pushedItems_append_singleton] at h
    have hsplit : item ∈ pushedItems calls ∨ item ∈ call.items := by
      cases call with
      | restart p => exact Or.inr h
      | _ => exact List.mem_append.mp h
    rcases hsplit with hbefore | hnow
    · obtain ⟨call', hcall', hitem⟩ := ih hbefore
      exact ⟨call', List.mem_append_left _ hcall', hitem⟩
    · exact ⟨call, by simp, hnow⟩

/-- Range restriction decides whether a rule can conclude anything. Resolving a matched atom away keeps
it, and its absence, and a rule has it exactly if a ground atom can be concluded from the rule. During
any calls there is no warning exactly if all atoms that are pushed are ground and all rules
range-restricted, and in this case every conclusion becomes known. Whatever is pushed, leaving out the
rules that are not range-restricted leaves the same facts in the same order. -/
theorem range_restriction_decides :
    (∀ (r : Rule) (i : Nat) (p a : Atom) (σ : Substitution), r.body[i]? = some p →
      a.isGround = true → p.signature = a.signature → p.unify? a = some σ →
        (r.resolve i σ).isRangeRestricted = r.isRangeRestricted) ∧
    (∀ r : Rule, r.isRangeRestricted = true ↔ ∃ facts : Set Atom,
      (∀ a ∈ facts, a.isGround = true) ∧ ∃ a, a.isGround = true ∧ r.Reduces facts ⟨a, []⟩) ∧
    ∀ calls : List Call,
      ((∀ event ∈ empty.reports calls, event.severity ≠ .warn) ↔
        ∀ call ∈ calls, call.isSafe = true) ∧
      ((∀ call ∈ calls, call.isSafe = true) →
        ∀ a, .rule ⟨a, []⟩ ∈ (ledgerOf calls).yielded → a ∈ (empty.applyAll calls).facts) ∧
      (empty.applyAll (calls.filterMap Call.restricted?)).facts = (empty.applyAll calls).facts := by
  refine ⟨?_, fun r => Rule.isRangeRestricted_iff_concludes, fun calls => ⟨?_, ?_, ?_⟩⟩
  · intro r i p a σ hp hground hsignature hσ
    exact Rule.isRangeRestricted_resolve hp (Atom.unify?_sound hground hsignature hσ).2
  · exact reports_no_warning_iff Knowledge.safe_empty
  · intro hsafe a ha
    refine known_of_concluded (fun item hitem => ?_) ha
    obtain ⟨call, hcall, hpushed⟩ := exists_call_of_mem_pushedItems hitem
    exact Item.isRestricted_of_isSafe (Call.isSafe_iff.mp (hsafe call hcall) item hpushed)
  · exact congrArg (fun k => k.factIndex.facts) (knowledge_restricted calls)

/-- With `pair(?x, ?y) :- node(?x)` left out, there is no warning, and the facts are the same. -/
theorem range_restriction_decides_pair :
    let node (t : Term) : Atom := ⟨"node", [t]⟩
    let pair : Rule := ⟨⟨"pair", [.var "?x", .var "?y"]⟩, [node (.var "?x")]⟩
    let seen : Rule := ⟨⟨"seen", [.var "?x"]⟩, [node (.var "?x")]⟩
    let σ : Substitution := .ofList [("?x", "a")]
    let calls : List Call := [.pushRule pair, .pushRule seen, .pushFact (node (.const "a"))]
    let safe : List Call := [.pushRule seen, .pushFact (node (.const "a"))]
    (pair.resolve 0 σ).isRangeRestricted = false ∧ (seen.resolve 0 σ).isRangeRestricted = true ∧
      (¬ ∀ event ∈ empty.reports calls, event.severity ≠ .warn) ∧
      (∀ event ∈ empty.reports safe, event.severity ≠ .warn) ∧
      (∀ a, .rule ⟨a, []⟩ ∈ (ledgerOf safe).yielded → a ∈ (empty.applyAll safe).facts) ∧
      (empty.applyAll safe).facts = (empty.applyAll calls).facts := by
  intro node pair seen σ calls safe
  obtain ⟨hresolve, -, hruns⟩ := range_restriction_decides
  have hpair := hresolve pair 0 (node (.var "?x")) (node (.const "a")) σ rfl rfl rfl (by decide)
  have hseen := hresolve seen 0 (node (.var "?x")) (node (.const "a")) σ rfl rfl rfl (by decide)
  have hsafe : ∀ call ∈ safe, call.isSafe = true := by decide
  have hunsafe : ¬ ∀ call ∈ calls, call.isSafe = true := by decide
  exact ⟨hpair.trans (by decide), hseen.trans (by decide), mt (hruns calls).1.mp hunsafe,
    (hruns safe).1.mpr hsafe, (hruns safe).2.1 hsafe, (hruns calls).2.2⟩

end Engine

end Datalog
