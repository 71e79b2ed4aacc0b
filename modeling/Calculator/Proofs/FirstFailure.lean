import Calculator.Proofs.Confluence
import Calculator.Proofs.FaultOrder
import Calculator.Proofs.TreeSemantics

/-!
Which fault the evaluation of an expression ends in.

Brackets are resolved from the right, so that the failure met first is in the
bracket that opens last. Within a bracket the order of its faults decides.
-/

namespace Calculator

open Calculator.Bracket

theorem value_of_reduce {tokens : List Token} {tree : Tree} {x : Float}
    (h : Derives 1 tokens tree)
    (hfree : BracketFree tokens) (hreduce : (reduce tokens).result = .ok x) :
    tree.value = .ok x ∧ x.isFinite := by
  rw [← resolve_of_bracketFree hfree] at hreduce
  obtain ⟨other, hother, hvalue, hfinite⟩ := Bracket.exists_tree_of_resolve hreduce
  obtain rfl := derives_unique h hother
  exact ⟨hvalue, hfinite⟩

/-- What the values of its brackets make of an expression. -/
structure Unbracketed (level : Nat) (tree next : Tree) : Prop where
  derives : Derives level next.tokens next
  bracketFree : BracketFree next.tokens
  alike : next.Alike tree
  segment : ∀ segment start failure, failure ∈ tree.failures segment start →
    failure.1.segment = segment

theorem Tree.segment_of_mem_failureAt {site : Site} {result : Except Fault Float}
    {failure : Site × Fault} (h : failure ∈ failureAt site result) :
    failure.1.segment = site.segment := by
  obtain ⟨heq, -⟩ := Tree.mem_failureAt.mp h
  rw [heq]

theorem unbracketed_of_unbracket {level : Nat} {tokens : List Token} {tree next : Tree}
    (h : Derives level tokens tree) (hnext : tree.unbracket.result = .ok next) :
    Unbracketed level tree next := by
  induction h generalizing next with
  | number x =>
      obtain rfl := Except.ok.inj hnext
      refine ⟨.number x, bracketFree_cons.mpr ⟨rfl, bracketFree_nil⟩, ⟨rfl, rfl⟩, ?_⟩
      intro segment start failure hmem
      contradiction
  | @bracket inside inner hinner ih =>
      obtain ⟨innerNext, hinnerNext, hnext⟩ := Outcome.exists_of_result_bind_eq_ok hnext
      obtain ⟨x, hreduce, hnext⟩ := Outcome.exists_of_result_bind_eq_ok hnext
      obtain rfl := Except.ok.inj hnext
      obtain ⟨hderives, hfree, halike, -⟩ := ih hinnerNext
      obtain ⟨hvalue, hfinite⟩ := value_of_reduce hderives hfree hreduce
      have hbracket : inner.bracket.value = .ok x :=
        Tree.value_bracket_eq_ok.mpr ⟨halike.value.symm.trans hvalue, hfinite⟩
      refine ⟨.number x, bracketFree_cons.mpr ⟨rfl, bracketFree_nil⟩,
        Tree.alike_number hbracket, ?_⟩
      intro segment start failure hmem
      rw [Tree.failures_eq_nil hbracket] at hmem
      contradiction
  | @root inside inner hinner ih =>
      obtain ⟨innerNext, hinnerNext, hnext⟩ := Outcome.exists_of_result_bind_eq_ok hnext
      obtain rfl := Except.ok.inj hnext
      obtain ⟨hderives, hfree, halike, hsegment⟩ := ih hinnerNext
      refine ⟨.root hderives, bracketFree_cons.mpr ⟨rfl, hfree⟩,
        Tree.alike_root halike, ?_⟩
      intro segment start failure hmem
      rcases hvalue : inner.value with fault | x
      · rw [Tree.failures_root_of_error hvalue] at hmem
        exact hsegment _ _ _ hmem
      · simp only [Tree.failures, hvalue] at hmem
        exact Tree.segment_of_mem_failureAt hmem
  | @binary op leftTokens rightTokens left right hleft hright ihleft ihright =>
      obtain ⟨rightNext, hrightNext, hnext⟩ := Outcome.exists_of_result_bind_eq_ok hnext
      obtain ⟨leftNext, hleftNext, hnext⟩ := Outcome.exists_of_result_bind_eq_ok hnext
      obtain rfl := Except.ok.inj hnext
      have hl := ihleft hleftNext
      have hr := ihright hrightNext
      refine ⟨.binary hl.derives hr.derives,
        bracketFree_append.mpr ⟨hl.bracketFree, bracketFree_cons.mpr ⟨rfl, hr.bracketFree⟩⟩,
        Tree.alike_binary hl.alike hr.alike, ?_⟩
      intro segment start failure hmem
      by_cases hvalues : ∃ x y, left.value = .ok x ∧ right.value = .ok y
      · obtain ⟨x, y, hx, hy⟩ := hvalues
        simp only [Tree.failures, hx, hy] at hmem
        exact Tree.segment_of_mem_failureAt hmem
      · rw [Tree.failures_binary_of_no_values hvalues] at hmem
        rcases List.mem_append.mp hmem with hmem | hmem
        · exact hl.segment _ _ _ hmem
        · exact hr.segment _ _ _ hmem
  | lift hmem hderives ih =>
      obtain ⟨hderives, hfree, halike, hsegment⟩ := ih hnext
      exact ⟨.lift hmem hderives, hfree, halike, hsegment⟩

/-- A failure that is met before all others of a list. -/
structure Earliest (site : Site) (fault : Fault) (failures : List (Site × Fault)) :
    Prop where
  mem : (site, fault) ∈ failures
  first : ∀ other ∈ failures, other.1 = site ∨ site.Precedes other.1

theorem exists_earliest_of_leads {tree : Tree} {segment start precedence : Nat}
    {fault : Fault}
    (hsegment : ∀ failure ∈ tree.failures segment start, failure.1.segment = segment)
    (h : Leads precedence fault tree.faults) :
    ∃ site, site.segment = segment ∧
    Earliest site fault (tree.failures segment start) := by
  obtain ⟨front, behind, hsplit, hfront, hbehind⟩ := h
  have hsorted := tree.pairwise_failures segment start
  rw [← tree.map_failures segment start] at hsplit
  obtain ⟨before, rest, hfailures, rfl, hrest⟩ := List.map_eq_append_iff.mp hsplit
  obtain ⟨⟨site, other⟩, after, rfl, heq, rfl⟩ := List.map_eq_cons_iff.mp hrest
  obtain ⟨rfl, rfl⟩ := Prod.mk.inj heq
  rw [hfailures] at hsegment hsorted ⊢
  have hsite : site.segment = segment := hsegment (site, other) (by simp)
  refine ⟨site, hsite, ⟨by simp, ?_⟩⟩
  intro failure hmem
  have hsame : site.segment = failure.1.segment :=
    hsite.trans (hsegment failure hmem).symm
  rcases List.mem_append.mp hmem with hmem | hmem
  · exact .inr (.inr ⟨hsame, .inl (hfront _ (List.mem_map_of_mem hmem))⟩)
  rcases List.mem_cons.mp hmem with rfl | hmem
  · exact .inl rfl
  · have hle : failure.1.precedence ≤ site.precedence :=
      hbehind _ (List.mem_map_of_mem hmem)
    have hlt : site.position < failure.1.position := by
      rw [List.map_append, List.pairwise_append, List.map_cons,
        List.pairwise_cons] at hsorted
      exact hsorted.2.1.1 _ (List.mem_map_of_mem hmem)
    rcases Nat.lt_or_eq_of_le hle with hlower | hequal
    · exact .inr (.inr ⟨hsame, .inl hlower⟩)
    · exact .inr (.inr ⟨hsame, .inr ⟨hequal.symm, hlt⟩⟩)

theorem exists_earliest_of_reduce {tree next : Tree} {fault : Fault}
    (h : Unbracketed 1 tree next) (hfinite : AllFinite tree.tokens)
    (herror : (reduce next.tokens).result = .error fault) (segment start : Nat) :
    ∃ site, site.segment = segment ∧
    Earliest site fault (tree.failures segment start) := by
  have hnextFinite : ∀ x, next.value = .ok x → x.isFinite := by
    intro x hvalue
    exact Tree.isFinite_of_value hfinite (h.alike.value.symm.trans hvalue)
  obtain ⟨precedence, hleads⟩ :=
    exists_leads_of_reduce h.derives h.bracketFree hnextFinite herror
  rw [h.alike.faults] at hleads
  exact exists_earliest_of_leads (h.segment segment start) hleads

theorem exists_earliest_of_unbracket {level : Nat} {tokens : List Token} {tree : Tree}
    {fault : Fault} (h : Derives level tokens tree) (hfinite : AllFinite tokens)
    (herror : tree.unbracket.result = .error fault) {segment start : Nat}
    (hle : segment ≤ start) :
    ∃ site, start < site.segment ∧
      Earliest site fault (tree.failures segment start) := by
  induction h generalizing segment start with
  | number x => contradiction
  | @bracket inside inner hinner ih =>
      have hinnerFinite := (allFinite_append.mp (allFinite_of_cons hfinite)).1
      rcases Outcome.error_of_result_bind_eq_error herror with herror | ⟨next, hnext, herror⟩
      · obtain ⟨site, hsegment, hearliest⟩ :=
          ih hinnerFinite herror (Nat.le_refl (start + 1))
        exact ⟨site, Nat.lt_of_succ_lt hsegment, hearliest⟩
      rcases Outcome.error_of_result_bind_eq_error herror with herror | ⟨x, -, herror⟩
      · rw [← tokens_of_derives hinner] at hinnerFinite
        obtain ⟨site, hsegment, hearliest⟩ := exists_earliest_of_reduce
          (unbracketed_of_unbracket hinner hnext) hinnerFinite herror (start + 1) (start + 1)
        exact ⟨site, hsegment ▸ Nat.lt_succ_self start, hearliest⟩
      · contradiction
  | @root inside inner hinner ih =>
      rcases Outcome.error_of_result_bind_eq_error herror with herror | ⟨next, -, herror⟩
      · obtain ⟨site, hsegment, hearliest⟩ :=
          ih (allFinite_of_cons hfinite) herror (Nat.le_succ_of_le hle)
        rcases hvalue : inner.value with cause | x
        · rw [Tree.failures_root_of_error hvalue]
          exact ⟨site, Nat.lt_of_succ_lt hsegment, hearliest⟩
        · rw [Tree.failures_eq_nil hvalue] at hearliest
          exact nomatch hearliest.mem
      · contradiction
  | @binary op leftTokens rightTokens left right hleft hright ihleft ihright =>
      obtain ⟨hleftFinite, hrightFinite⟩ := allFinite_append.mp hfinite
      have hrightFinite := allFinite_of_cons hrightFinite
      have hvalues : ¬ ∃ x y, left.value = .ok x ∧ right.value = .ok y := by
        rintro ⟨x, y, hx, hy⟩
        obtain ⟨leftNext, hleftNext, -⟩ := exists_unbracket_of_value hleft hx
        obtain ⟨rightNext, hrightNext, -⟩ := exists_unbracket_of_value hright hy
        rw [Tree.unbracket, Outcome.result_bind_of_ok _ hrightNext,
          Outcome.result_bind_of_ok _ hleftNext] at herror
        contradiction
      rw [Tree.failures_binary_of_no_values hvalues]
      rcases Outcome.error_of_result_bind_eq_error herror with herror | ⟨next, hnext, herror⟩
      · have hbehind : segment ≤ start + left.tokens.length + 1 := by omega
        obtain ⟨site, hsegment, hearliest⟩ := ihright hrightFinite herror hbehind
        refine ⟨site, by omega, List.mem_append_right _ hearliest.mem, ?_⟩
        intro other hmem
        rcases List.mem_append.mp hmem with hmem | hmem
        · have hother := (Tree.inside_of_mem_failures hmem).segment
          exact .inr (.inl (by omega))
        · exact hearliest.first other hmem
      rcases Outcome.error_of_result_bind_eq_error herror with herror | ⟨_, -, herror⟩
      · obtain ⟨site, hsegment, hearliest⟩ := ihleft hleftFinite herror hle
        refine ⟨site, hsegment, List.mem_append_left _ hearliest.mem, ?_⟩
        intro other hmem
        rcases List.mem_append.mp hmem with hmem | hmem
        · exact hearliest.first other hmem
        · have hother := (unbracketed_of_unbracket hright hnext).segment _ _ other hmem
          exact .inr (.inl (by omega))
      · contradiction
  | lift hmem hderives ih => exact ih hfinite herror hle

theorem exists_earliest_of_resolve {tokens : List Token} {tree : Tree} {fault : Fault}
    (h : Derives 1 tokens tree) (hfinite : AllFinite tokens)
    (herror : (Bracket.resolve tokens).result = .error fault) :
    ∃ site, Earliest site fault (tree.failures 0 0) := by
  have htokens := tokens_of_derives h
  rw [← htokens, Bracket.resolve_tree] at herror
  rcases Outcome.error_of_result_bind_eq_error herror with herror | ⟨next, hnext, herror⟩
  · obtain ⟨site, -, hearliest⟩ :=
      exists_earliest_of_unbracket h hfinite herror (Nat.le_refl 0)
    exact ⟨site, hearliest⟩
  · rw [← htokens] at hfinite
    obtain ⟨site, -, hearliest⟩ :=
      exists_earliest_of_reduce (unbracketed_of_unbracket h hnext) hfinite herror 0 0
    exact ⟨site, hearliest⟩

namespace Tree

theorem firstFailure_of_earliest {tree : Tree} {site : Site} {fault : Fault}
    (hfinite : AllFinite tree.tokens) (h : Earliest site fault (tree.failures 0 0)) :
    ∃ part, tree.FirstFailure site part fault := by
  obtain ⟨part, hmem, hfails⟩ := (mem_failures_iff hfinite).mp h.mem
  refine ⟨part, hmem, hfails, ?_⟩
  intro otherSite other otherFault hother hotherFails
  exact h.first _ ((mem_failures_iff hfinite).mpr ⟨other, hother, hotherFails⟩)

end Tree

end Calculator
