import ParserAlgebra.Evaluation.Bound
import ParserAlgebra.Proofs.Invariant
import ParserAlgebra.Proofs.Reach

/-!
# Properties that optimizing keeps

Optimizing rebuilds nodes with their functions and values and makes tests of membership. A property
of nodes that looks at no more than these holds everywhere in what is made of a parser in which it
holds everywhere.
-/

namespace ParserAlgebra

open Run (Keeps)
open ParserAlgebra.Parser (Everywhere)

/-- A property of nodes that neither identities nor the parsers below matter to, that right sides
may be put off under, and that tests of membership have. -/
structure Parser.Local (ok : Parser → Prop) : Prop where
  map : ∀ {id id' p p' fn}, ok (.map id p fn) → ok (.map id' p' fn)
  bind : ∀ {id id' p p' label next}, ok (.bind id p label next) → ok (.bind id' p' label next)
  product : ∀ {id id' p p' q q'}, ok (.product id p q) → ok (.product id' p' q')
  both : ∀ {id id' p p' q q' combine}, ok (.both id p q combine) → ok (.both id' p' q' combine)
  orElse : ∀ {id id' p p' t cell}, ok (.orElse id p t) → ok (.orElse id' p' (.optimized cell t))
  many : ∀ {id id' p p' identity combine}, ok (.many id p identity combine) →
    ok (.many id' p' identity combine)
  manyBetween : ∀ {id id' p p' minimum maximum identity combine},
    ok (.manyBetween id p minimum maximum identity combine) →
      ok (.manyBetween id' p' minimum maximum identity combine)
  collect : ∀ {id id' p p' minimum accumulator}, ok (.collect id p minimum accumulator) →
    ok (.collect id' p' minimum accumulator)
  memberOf : ∀ {id cs words}, ok (.charWhere id (.memberOf cs) words)

variable {rules : Rules} {ok : Parser → Prop}

theorem leaves_everywhere {call : Thunk → Run Parser}
    (hcall : ∀ t, t.Everywhere rules ok →
      Keeps (Everywhere rules ok) (call t) (Everywhere rules ok))
    (n : Nat) {p : Parser} (hp : p.Everywhere rules ok) (seen : List Nat) :
    Keeps (Everywhere rules ok) (Chain.leaves call n p seen) fun _ => True := by
  induction n generalizing p seen with
  | zero => exact .exhaust
  | succ n ih =>
    unfold Chain.leaves
    cases p <;> try exact .pure trivial
    case orElse id left right =>
      dsimp only
      split
      · exact .pure trivial
      · have hleft : left.Everywhere rules ok := hp.child (.head _)
        refine .bind (ih hleft _) fun front _ => ?_
        rcases front with ⟨_ | front, seen⟩
        · exact .pure trivial
        · refine .bind (hcall right (hp.thunk rfl)) fun q hq => .bind (ih hq _) fun back _ => ?_
          rcases back with ⟨_ | back, seen⟩ <;> exact .pure trivial
    case bare =>
      dsimp only
      split
      · exact .pure trivial
      · split
        · exact .raise _
        · exact .pure trivial

theorem charSet_everywhere {C : Parser → Prop} (hok : Parser.Local ok) (chars : List Parser) :
    Keeps C (Chain.charSet chars) (Everywhere rules ok) := by
  refine .bind (.ofExcept fun _ _ => trivial) fun members _ =>
    .bind (.ofExcept fun _ _ => trivial) fun description _ => .build fun next => ?_
  exact .of_children hok.memberOf rfl rfl fun _ hq => absurd hq List.not_mem_nil

theorem optimizeWith_everywhere (hok : Parser.Local ok) {call : Thunk → Run Parser}
    (hcall : ∀ t, t.Everywhere rules ok →
      Keeps (Everywhere rules ok) (call t) (Everywhere rules ok))
    (n : Nat) {p : Parser} (hp : p.Everywhere rules ok) :
    Keeps (Everywhere rules ok) (optimizeWith call n p) (Everywhere rules ok) := by
  fun_induction optimizeWith call n p
  case case1 id left right ih =>
    refine .bind (leaves_everywhere hcall n hp []) fun found _ => ?_
    rcases found with ⟨_ | chars, seen⟩
    · refine .bind (.build (Q := fun _ => True) fun _ => trivial) fun cell _ =>
        .bind (ih (hp.child (.head _))) fun left' hl => .build fun next => ?_
      refine .of_parts (hok.orElse hp.here) (List.forall_mem_singleton.2 hl) (fun t ht => ?_)
        fun f v q hn _ => ?_
      · cases ht
        exact fun q hq => hp.thunk rfl q hq
      · cases hn
    · exact charSet_everywhere hok chars
  case case2 ih =>
    refine .bind (ih (hp.child (.head _))) fun source' hs => .build fun next => ?_
    exact .of_children (hok.map hp.here) rfl rfl (List.forall_mem_singleton.2 hs)
  case case3 ih =>
    refine .bind (ih (hp.child (.head _))) fun source' hs => .build fun next => ?_
    refine .of_parts (hok.bind hp.here) (List.forall_mem_singleton.2 hs) (fun t ht => ?_)
      fun g v q hg hq => ?_
    · cases ht
    · cases hg
      exact hp.next rfl hq
  case case4 ihl ihr =>
    refine .bind (ihl (hp.child (.head _))) fun left' hl =>
      .bind (ihr (hp.child (.tail _ (.head _)))) fun right' hr => .build fun next => ?_
    exact .of_children (hok.product hp.here) rfl rfl
      (List.forall_mem_cons.2 ⟨hl, List.forall_mem_singleton.2 hr⟩)
  case case5 ihl ihr =>
    refine .bind (ihl (hp.child (.head _))) fun left' hl =>
      .bind (ihr (hp.child (.tail _ (.head _)))) fun right' hr => .build fun next => ?_
    exact .of_children (hok.both hp.here) rfl rfl
      (List.forall_mem_cons.2 ⟨hl, List.forall_mem_singleton.2 hr⟩)
  case case6 ih =>
    refine .bind (ih (hp.child (.head _))) fun source' hs => .build fun next => ?_
    exact .of_children (hok.many hp.here) rfl rfl (List.forall_mem_singleton.2 hs)
  case case7 ih =>
    refine .bind (ih (hp.child (.head _))) fun source' hs => .build fun next => ?_
    exact .of_children (hok.manyBetween hp.here) rfl rfl (List.forall_mem_singleton.2 hs)
  case case8 ih =>
    refine .bind (ih (hp.child (.head _))) fun source' hs => .build fun next => ?_
    exact .of_children (hok.collect hp.here) rfl rfl (List.forall_mem_singleton.2 hs)
  case case9 => exact .raise _
  case case10 | case11 => exact .pure hp

theorem call_everywhere (hok : Parser.Local ok) (n : Nat) {t : Thunk}
    (ht : t.Everywhere rules ok) :
    Keeps (Everywhere rules ok) (t.call rules n) (Everywhere rules ok) := by
  induction n generalizing t with
  | zero => exact .exhaust
  | succ n ih =>
    cases t with
    | const p => exact .pure (ht p rfl)
    | rule name =>
      refine .bind (.countCall name) fun _ _ => ?_
      split
      · rename_i p hp
        have htarget : (Thunk.rule name).target rules = .ok p := by simp only [Thunk.target, hp]
        exact .pure (ht p htarget)
      · exact .raise _
    | optimized cell source =>
      refine .once (.bind (ih ht) fun p hp => ?_)
      exact optimizeWith_everywhere hok (fun _ => ih) n hp

/-- What optimizing makes of a parser, and what it leaves in the cells, has the property
everywhere. -/
theorem optimize_everywhere (hok : Parser.Local ok) (n : Nat) {p : Parser}
    (hp : p.Everywhere rules ok) :
    Keeps (Everywhere rules ok) (optimize rules n p) (Everywhere rules ok) :=
  optimizeWith_everywhere hok (fun _ => call_everywhere hok n) n hp

end ParserAlgebra
