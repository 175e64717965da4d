import ExprBackend.Proofs.Allocation

/-!
# Parts of a function

A block of a function, or the value of one of its statements, together with the names in scope
before it and the variables that are live behind it. The facts that hold of the whole body hold
of every part.
-/

namespace ExprBackend

/-- What a statement has as its value, apart from the name it is given. -/
def Expr.value : Expr → Expr
  | .bind _ init => init
  | x => x

namespace Expr

theorem bindings_eq (x : Expr) : x.bindings = x.value.bindings ++ x.declares := by
  cases x with
  | bind name init => rw [bindings, value, declares]
  | _ => exact (List.append_nil _).symm

theorem reads_value (x : Expr) : x.value.reads = x.reads := by
  cases x with
  | bind name init => rw [value, reads]
  | _ => rfl

theorem innerPoints_value (vars : Variables) (x : Expr) (s : BitSet) :
    Liveness.innerPoints vars x.value s = Liveness.innerPoints vars x s := by
  cases x with
  | bind name init => rw [value, Liveness.innerPoints]
  | _ => rfl

theorem value_of_isBind {x : Expr} (h : x.isBind = false) : x.value = x := by
  cases x with
  | bind name init => cases h
  | _ => rfl

theorem wellFormed_value {x : Expr} {scope : Typing} (h : x.wellFormed scope = true) :
    x.value.wellFormed scope = true ∧ x.value.isBind = false := by
  cases x with
  | bind name init =>
    rw [wellFormed, Bool.and_eq_true, Bool.not_eq_true'] at h
    exact ⟨h.2, h.1⟩
  | _ => exact ⟨h, rfl⟩

end Expr

namespace Func

open Liveness

/-- How a part of a function lies within it: `names` are bound in the part, `scope` is visible
from it, and `live` is live behind it. -/
structure Part (f : Func) (scope : Typing) (live : BitSet) (names : Typing) (reads : List String)
    (points : List Point) : Prop where
  known : ∀ e ∈ scope, e ∈ f.bindings
  bound : ∀ e ∈ names, e ∈ f.bindings
  nodup : (names.map Prod.fst).Nodup
  fresh : ∀ z ∈ scope.map Prod.fst, z ∉ names.map Prod.fst
  visible : ∀ z ∈ reads, z ∈ scope.map Prod.fst ∨ z ∈ names.map Prod.fst
  points_sub : ∀ p ∈ points, p ∈ f.points
  reads_sub : ∀ z ∈ reads, z ∈ blockReads f.body
  /-- A name is only read in the block that binds it. -/
  local_reads : ∀ z ∈ names.map Prod.fst, z ∈ blockReads f.body → z ∈ reads
  ended : ∀ z ∈ names.map Prod.fst, ¬ f.numbers.Live live z

structure BlockPart (f : Func) (xs : List Expr) (scope : Typing) (live : BitSet) : Prop extends
    f.Part scope live (blockBindings xs) (blockReads xs) (blockPoints f.numbers xs live) where
  wellFormed : blockWellFormed xs scope = true

structure ExprPart (f : Func) (x : Expr) (scope : Typing) (live : BitSet) : Prop extends
    f.Part scope live x.bindings x.reads (innerPoints f.numbers x live) where
  wellFormed : x.wellFormed scope = true

variable {f : Func} {scope : Typing} {live : BitSet} {x : Expr} {xs : List Expr} {z : String}

theorem LoaderForm.blockPart (hf : f.LoaderForm) :
    f.BlockPart f.body f.paramTyping (BitSet.ofList f.seed) where
  known e he := List.mem_append_left _ he
  bound e he := List.mem_append_right _ he
  nodup := by
    have h := hf.nodup
    rw [bindings, List.map_append] at h
    exact h.of_append_right
  fresh z hz hmem := by
    have h := hf.nodup
    rw [bindings, List.map_append] at h
    exact List.disjoint_of_nodup_append h hz hmem
  visible := blockReads_inScope f.body f.paramTyping hf.wellFormed
  points_sub p hp := hp
  reads_sub z hz := hz
  local_reads z _ hz := hz
  ended := by
    rintro z hz ⟨v, hv, hmem⟩
    rw [BitSet.contains_ofList, decide_eq_true_iff] at hmem
    obtain ⟨p, hp, hpv⟩ := List.mem_filterMap.1 hmem
    obtain rfl : z = p.name := hf.toScoped.injective z p.name v hv hpv
    have h := hf.nodup
    rw [bindings, List.map_append] at h
    refine List.disjoint_of_nodup_append h ?_ hz
    exact List.mem_map.2 ⟨(p.name, p.ty), List.mem_map.2 ⟨p, hp, rfl⟩, rfl⟩
  wellFormed := hf.wellFormed

section Live

variable {names : Typing} {reads : List String} {points : List Point}

theorem Part.find?_isSome (h : f.Part scope live names reads points) (hf : f.LoaderForm)
    (hz : z ∈ scope.map Prod.fst) : (f.numbers.find? z).isSome = true :=
  hf.toScoped.find?_isSome (List.map_subset _ (fun e he => h.known e he) hz)

end Live

theorem BlockPart.live_iff (h : f.BlockPart xs scope live) (hf : f.LoaderForm)
    (hz : z ∈ scope.map Prod.fst) :
    f.numbers.Live (liveBlock f.numbers xs live) z ↔ z ∈ blockReads xs ∨ f.numbers.Live live z := by
  obtain ⟨v, hv⟩ := Option.isSome_iff_exists.1 (h.find?_isSome hf hz)
  simp only [Variables.Live, hv, Option.some.injEq, exists_eq_left']
  exact live_liveBlock hf.toScoped.injective hv xs live (h.fresh z hz)

theorem ExprPart.live_iff (h : f.ExprPart x scope live) (hf : f.LoaderForm)
    (hz : z ∈ scope.map Prod.fst) :
    f.numbers.Live (liveExpr f.numbers x live) z ↔ z ∈ x.reads ∨ f.numbers.Live live z := by
  obtain ⟨v, hv⟩ := Option.isSome_iff_exists.1 (h.find?_isSome hf hz)
  simp only [Variables.Live, hv, Option.some.injEq, exists_eq_left']
  exact live_liveExpr hf.toScoped.injective hv x live (h.fresh z hz)

theorem BlockPart.tail (h : f.BlockPart (x :: xs) scope live) :
    f.BlockPart xs (x.declares ++ scope) live := by
  have hwf := h.wellFormed
  rw [blockWellFormed, Bool.and_eq_true] at hwf
  have hnodup := h.nodup
  rw [blockBindings, List.map_append] at hnodup
  have hdisjoint := List.disjoint_of_nodup_append hnodup
  have hsub : blockBindings xs ⊆ blockBindings (x :: xs) := by
    rw [blockBindings]
    exact List.subset_append_right _ _
  refine ⟨⟨?_, fun e he => h.bound e (hsub he), hnodup.of_append_right, ?_,
    blockReads_inScope xs _ hwf.2, ?_, ?_, ?_, ?_⟩, hwf.2⟩
  · intro e he
    rcases List.mem_append.1 he with he | he
    · refine h.bound e ?_
      rw [blockBindings]
      exact List.mem_append_left _ (x.declares_subset he)
    · exact h.known e he
  · intro z hz hmem
    rw [List.map_append, List.mem_append] at hz
    rcases hz with hz | hz
    · exact hdisjoint (List.map_subset _ x.declares_subset hz) hmem
    · exact h.fresh z hz (List.map_subset _ hsub hmem)
  · intro p hp
    refine h.points_sub p ?_
    rw [blockPoints]
    simp [hp]
  · intro z hz
    refine h.reads_sub z ?_
    rw [blockReads]
    exact List.mem_append_right _ hz
  · intro z hz hread
    have hmem := h.local_reads z (List.map_subset _ hsub hz) hread
    rw [blockReads, List.mem_append] at hmem
    refine hmem.resolve_left fun hx => ?_
    rcases x.reads_inScope scope hwf.1 z hx with hx | hx
    · exact h.fresh z hx (List.map_subset _ hsub hz)
    · exact hdisjoint hx hz
  · exact fun z hz => h.ended z (List.map_subset _ hsub hz)

/-- The value of the first statement, behind which the rest of the block follows. -/
theorem BlockPart.head (h : f.BlockPart (x :: xs) scope live) (hf : f.LoaderForm) :
    f.ExprPart x.value scope (liveBlock f.numbers xs live) := by
  have hwf := h.wellFormed
  rw [blockWellFormed, Bool.and_eq_true] at hwf
  have hnodup := h.nodup
  rw [blockBindings, Expr.bindings_eq, List.map_append, List.map_append] at hnodup
  have hdeclares := List.disjoint_of_nodup_append hnodup.of_append_left
  have hrest := List.disjoint_of_nodup_append hnodup
  have hsub : x.value.bindings ⊆ blockBindings (x :: xs) := by
    rw [blockBindings, x.bindings_eq, List.append_assoc]
    exact List.subset_append_left _ _
  -- what the statement binds inside its value is not visible in the rest of the block
  have hhidden : ∀ z ∈ x.value.bindings.map Prod.fst, z ∉ blockReads xs := by
    intro z hz hread
    rcases blockReads_inScope xs _ hwf.2 z hread with hmem | hmem
    · rw [List.map_append, List.mem_append] at hmem
      rcases hmem with hmem | hmem
      · exact hdeclares hz hmem
      · exact h.fresh z hmem (List.map_subset _ hsub hz)
    · exact hrest (List.mem_append_left _ hz) hmem
  obtain ⟨hvalue, _⟩ := Expr.wellFormed_value hwf.1
  refine ⟨⟨h.known, fun e he => h.bound e (hsub he), hnodup.of_append_left.of_append_left, ?_,
    x.value.reads_inScope scope hvalue, ?_, ?_, ?_, ?_⟩, hvalue⟩
  · exact fun z hz hmem => h.fresh z hz (List.map_subset _ hsub hmem)
  · intro p hp
    refine h.points_sub p ?_
    rw [Expr.innerPoints_value] at hp
    rw [blockPoints]
    simp [hp]
  · intro z hz
    rw [Expr.reads_value] at hz
    refine h.reads_sub z ?_
    rw [blockReads]
    exact List.mem_append_left _ hz
  · intro z hz hread
    have hmem := h.local_reads z (List.map_subset _ hsub hz) hread
    rw [blockReads, List.mem_append] at hmem
    rw [Expr.reads_value]
    exact hmem.resolve_right (hhidden z hz)
  · rintro z hz ⟨v, hv, hlive⟩
    have hunbound : z ∉ (blockBindings xs).map Prod.fst := fun hmem =>
      hrest (List.mem_append_left _ hz) hmem
    rcases (live_liveBlock hf.toScoped.injective hv xs live hunbound).1 hlive with hread | hlive
    · exact hhidden z hz hread
    · exact h.ended z (List.map_subset _ hsub hz) ⟨v, hv, hlive⟩

/-- A name that the first statement binds is read in the rest of the block or nowhere. -/
theorem BlockPart.read_iff (h : f.BlockPart (x :: xs) scope live)
    (hz : z ∈ x.declares.map Prod.fst) : z ∈ blockReads f.body ↔ z ∈ blockReads xs := by
  have hwf := h.wellFormed
  rw [blockWellFormed, Bool.and_eq_true] at hwf
  have hnodup := h.nodup
  rw [blockBindings, Expr.bindings_eq, List.map_append, List.map_append] at hnodup
  have hmem : z ∈ (blockBindings (x :: xs)).map Prod.fst := by
    rw [blockBindings, List.map_append, List.mem_append]
    exact Or.inl (List.map_subset _ x.declares_subset hz)
  constructor
  · intro hread
    have hread := h.local_reads z hmem hread
    rw [blockReads, List.mem_append] at hread
    refine hread.resolve_left fun hx => ?_
    rw [← Expr.reads_value] at hx
    rcases x.value.reads_inScope scope (Expr.wellFormed_value hwf.1).1 z hx with hx | hx
    · exact h.fresh z hx hmem
    · exact List.disjoint_of_nodup_append hnodup.of_append_left hx hz
  · intro hread
    exact h.tail.reads_sub z hread

/-- What is live before a block is live before the value of its first statement. -/
theorem BlockPart.live_head (h : f.BlockPart (x :: xs) scope live) (hf : f.LoaderForm)
    (hz : z ∈ scope.map Prod.fst) :
    f.numbers.Live (liveBlock f.numbers (x :: xs) live) z ↔
      f.numbers.Live (liveExpr f.numbers x.value (liveBlock f.numbers xs live)) z := by
  have hz' : z ∈ (x.declares ++ scope).map Prod.fst := by
    rw [List.map_append]
    exact List.mem_append_right _ hz
  rw [h.live_iff hf hz, (h.head hf).live_iff hf hz, h.tail.live_iff hf hz', blockReads,
    List.mem_append, Expr.reads_value, or_assoc]

theorem BlockPart.live_tail (h : f.BlockPart (x :: xs) scope live) (hf : f.LoaderForm)
    (hz : z ∈ scope.map Prod.fst) (hlive : f.numbers.Live (liveBlock f.numbers xs live) z) :
    f.numbers.Live (liveBlock f.numbers (x :: xs) live) z :=
  (h.live_head hf hz).2 (((h.head hf).live_iff hf hz).2 (Or.inr hlive))

/-- A name that the first statement binds and that is not read is not live behind it. -/
theorem BlockPart.not_live (h : f.BlockPart (x :: xs) scope live) (hf : f.LoaderForm)
    (hz : z ∈ x.declares.map Prod.fst) (hread : z ∉ blockReads xs) :
    ¬ f.numbers.Live (liveBlock f.numbers xs live) z := by
  have hz' : z ∈ (x.declares ++ scope).map Prod.fst := by
    rw [List.map_append]
    exact List.mem_append_left _ hz
  rw [h.tail.live_iff hf hz']
  rintro (hmem | hlive)
  · exact hread hmem
  · refine h.ended z ?_ hlive
    rw [blockBindings, List.map_append]
    exact List.mem_append_left _ (List.map_subset _ x.declares_subset hz)

theorem live_onTrue {vars : Variables} {cond : Atom} {onTrue : List Expr}
    {onFalse : Option (List Expr)} (h : vars.Live (liveBlock vars onTrue live) z) :
    vars.Live (liveExpr vars (.branch cond onTrue onFalse) live) z := by
  obtain ⟨v, hv, hmem⟩ := h
  refine ⟨v, hv, ?_⟩
  cases onFalse <;>
    simp only [liveExpr, BitSet.contains_insertAll, BitSet.contains_merge, hmem, Bool.or_true,
      or_true]

theorem live_onFalse {vars : Variables} {cond : Atom} {onTrue b : List Expr}
    (h : vars.Live (liveBlock vars b live) z) :
    vars.Live (liveExpr vars (.branch cond onTrue (some b)) live) z := by
  obtain ⟨v, hv, hmem⟩ := h
  refine ⟨v, hv, ?_⟩
  simp only [liveExpr, BitSet.contains_insertAll, BitSet.contains_merge, hmem, Bool.true_or,
    or_true]

/-- A smaller part with the same surroundings. -/
theorem Part.restrict {names names' : Typing} {reads reads' : List String}
    {points points' : List Point} (h : f.Part scope live names reads points)
    (hnames : names'.Sublist names) (hreads : reads' ⊆ reads) (hpoints : points' ⊆ points)
    (hvisible : ∀ z ∈ reads', z ∈ scope.map Prod.fst ∨ z ∈ names'.map Prod.fst)
    (hlocal : ∀ z ∈ names'.map Prod.fst, z ∈ reads → z ∈ reads') :
    f.Part scope live names' reads' points' := by
  have hsub : names'.map Prod.fst ⊆ names.map Prod.fst := (hnames.map _).subset
  refine ⟨h.known, fun e he => h.bound e (hnames.subset he), h.nodup.sublist (hnames.map _), ?_,
    hvisible, fun p hp => h.points_sub p (hpoints hp), fun z hz => h.reads_sub z (hreads hz), ?_,
    fun z hz => h.ended z (hsub hz)⟩
  · exact fun z hz hmem => h.fresh z hz (hsub hmem)
  · exact fun z hz hread => hlocal z hz (h.local_reads z (hsub hz) hread)

section Branch

variable {cond : Atom} {first second : List Expr}

theorem ExprPart.notMem_cond {onFalse : Option (List Expr)}
    (h : f.ExprPart (.branch cond first onFalse) scope live)
    (hz : z ∈ (Expr.branch cond first onFalse).bindings.map Prod.fst) : z ∉ cond.reads := by
  have hcond : cond.inScope scope = true := by
    have hwf := h.wellFormed
    cases onFalse with
    | none =>
      rw [Expr.wellFormed, Bool.and_eq_true] at hwf
      exact hwf.1
    | some b =>
      simp only [Expr.wellFormed, Bool.and_eq_true] at hwf
      exact hwf.1.1
  exact fun hread => h.fresh z (Atom.reads_inScope hcond z hread) hz

theorem ExprPart.onlyBranch (h : f.ExprPart (.branch cond first none) scope live) :
    f.BlockPart first scope live := by
  have hwf := h.wellFormed
  rw [Expr.wellFormed, Bool.and_eq_true] at hwf
  refine ⟨h.toPart.restrict ?_ ?_ ?_ (blockReads_inScope first scope hwf.2) ?_, hwf.2⟩
  · rw [Expr.bindings]
  · rw [Expr.reads]
    exact List.subset_append_right _ _
  · simp [innerPoints]
  · intro z hz hread
    rw [Expr.reads, List.mem_append] at hread
    exact hread.resolve_left (h.notMem_cond (by rwa [Expr.bindings]))

theorem ExprPart.firstBranch (h : f.ExprPart (.branch cond first (some second)) scope live) :
    f.BlockPart first scope live := by
  have hwf := h.wellFormed
  simp only [Expr.wellFormed, Bool.and_eq_true] at hwf
  have hnodup := h.nodup
  rw [Expr.bindings, List.map_append] at hnodup
  have hnames : (blockBindings first).Sublist (Expr.branch cond first (some second)).bindings := by
    rw [Expr.bindings]
    exact List.sublist_append_left _ _
  refine ⟨h.toPart.restrict hnames ?_ ?_ (blockReads_inScope first scope hwf.1.2) ?_, hwf.1.2⟩
  · rw [Expr.reads, List.append_assoc]
    exact List.subset_append_of_subset_right _ (List.subset_append_left _ _)
  · simp [innerPoints]
  · intro z hz hread
    have hz' := (hnames.map Prod.fst).subset hz
    rw [Expr.reads, List.append_assoc, List.mem_append, List.mem_append] at hread
    refine (hread.resolve_left (h.notMem_cond hz')).resolve_right fun hread => ?_
    rcases blockReads_inScope second scope hwf.2 z hread with hmem | hmem
    · exact h.fresh z hmem hz'
    · exact List.disjoint_of_nodup_append hnodup hz hmem

theorem ExprPart.secondBranch (h : f.ExprPart (.branch cond first (some second)) scope live) :
    f.BlockPart second scope live := by
  have hwf := h.wellFormed
  simp only [Expr.wellFormed, Bool.and_eq_true] at hwf
  have hnodup := h.nodup
  rw [Expr.bindings, List.map_append] at hnodup
  have hnames : (blockBindings second).Sublist (Expr.branch cond first (some second)).bindings := by
    rw [Expr.bindings]
    exact List.sublist_append_right _ _
  refine ⟨h.toPart.restrict hnames ?_ ?_ (blockReads_inScope second scope hwf.2) ?_, hwf.2⟩
  · rw [Expr.reads]
    exact List.subset_append_right _ _
  · simp [innerPoints]
  · intro z hz hread
    have hz' := (hnames.map Prod.fst).subset hz
    rw [Expr.reads, List.append_assoc, List.mem_append, List.mem_append] at hread
    refine (hread.resolve_left (h.notMem_cond hz')).resolve_left fun hread => ?_
    rcases blockReads_inScope first scope hwf.1.2 z hread with hmem | hmem
    · exact h.fresh z hmem hz'
    · exact List.disjoint_of_nodup_append hnodup hmem hz

end Branch

end Func

end ExprBackend
