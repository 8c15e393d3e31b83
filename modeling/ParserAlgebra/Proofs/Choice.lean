import ParserAlgebra.Proofs.Effect
import ParserAlgebra.Proofs.Replay

/-!
# Laws of choice

Ordered choice is associative, has the parser that always rejects on its left as a unit, and maps go
into its alternatives. An alternative that rejected rejects again in the same way, so the same one
twice is as good as once, and where two alternatives begin alike, the beginning may be taken out in
front: it is passed again with the same value and to the same offset.
-/

namespace ParserAlgebra

namespace Effect

variable {α β : Type}

/-- The effects that follow need to agree only where they are reached. -/
theorem bind_congr_at {x : Effect α} {f g : α → Effect β} {c c' : Cells} {o : Except Fault β}
    (h : ∀ a mid, x c (.ok a) mid → (f a mid o c' ↔ g a mid o c')) :
    (x >>= f) c o c' ↔ (x >>= g) c o c' :=
  or_congr Iff.rfl (exists_congr fun a => exists_congr fun mid => and_congr_right (h a mid))

/-- Cells that hold a parser still hold it after the effect. -/
def Keeps (x : Effect α) : Prop := ∀ ⦃c o c'⦄, x c o c' → c.memory.KeptIn c'.memory

/-- What the effect gave from some cells it gives again, and nothing else, from all cells that keep
what it left, and these it leaves. -/
def Replays (x : Effect α) : Prop := ∀ ⦃c a mid⦄, x c (.ok a) mid →
  ∀ ⦃d⦄, mid.memory.KeptIn d.memory → ∀ {o d'}, x d o d' ↔ o = .ok a ∧ d' = d

theorem Replays.bind_again {x : Effect α} (hx : x.Replays) {c mid d c' : Cells} {a : α}
    (h : x c (.ok a) mid) (hd : mid.memory.KeptIn d.memory) (g : α → Effect β)
    {o : Except Fault β} : (x >>= g) d o c' ↔ g a d o c' := by
  constructor
  · rintro (⟨e, rfl, he⟩ | ⟨a', d', ha, hg⟩)
    · cases ((hx h hd).1 he).1
    · obtain ⟨heq, rfl⟩ := (hx h hd).1 ha
      cases heq
      exact hg
  · intro hg
    exact .inr ⟨a, d, (hx h hd).2 ⟨rfl, rfl⟩, hg⟩

theorem Replays.orElse_self {x : Effect Reply} (hx : x.Replays) : x.orElse x = x := by
  refine ext fun c o c' => ?_
  calc x.orElse x c o c'
      ↔ (x >>= pure) c o c' := bind_congr_at fun reply mid h => ?same
    _ ↔ x c o c' := by rw [bind_pure]
  case same =>
    cases reply with
    | accept v stop => exact Iff.rfl
    | reject why start => exact hx h fun _ _ hp => hp

theorem Replays.andThen_orElse {x : Effect Reply} (hx : x.Replays)
    {f : Value → Nat → Effect Reply} (hf : ∀ v stop, (f v stop).Keeps)
    (g : Value → Nat → Effect Reply) : (x.andThen f).orElse (x.andThen g) =
      x.andThen fun v stop => (f v stop).orElse (g v stop) := by
  refine ext fun c o c' => ?_
  rw [orElse, andThen, bind_assoc]
  refine bind_congr_at fun reply mid h => ?_
  cases reply with
  | accept v stop =>
    -- Where `f` rejects, `x` comes again to where `f` began, and `g` goes on from there.
    refine bind_congr_at fun reply' last h' => ?_
    cases reply' with
    | accept w stop' => exact Iff.rfl
    | reject why start => exact hx.bind_again h (hf v stop h') _
  | reject why start =>
    rw [pure_bind]
    exact hx.bind_again h (fun _ _ hp => hp) _

end Effect

section

variable (cx : Context) (p q : Parser) (i : Nat)

theorem Parser.effect_keeps : (p.effect cx i).Keeps := fun _ _ _ h => Evaluates.keeps h

theorem Parser.effect_replays : (p.effect cx i).Replays := by
  intro c reply mid h d hd o d'
  have hagain : p.effect cx i d (.ok reply) d := Evaluates.again h hd
  constructor
  · exact fun h' => Run.Yields.unique (interpret_steady cx p i).growing h' hagain
  · rintro ⟨rfl, rfl⟩
    exact hagain

/-- Mapping goes into the alternatives. -/
theorem effect_map_orElse (id id' j k : Nat) (fn : Transform) :
    (Parser.map id (.orElse id' p (.const q)) fn).effect cx i =
      ((Parser.map j p fn).effect cx i).orElse ((Parser.map k q fn).effect cx i) := by
  simp only [effect_map, effect_orElse_const]
  exact Effect.orElse_andThen_accept _ _ fn.apply

/-- A pair is made by mapping over its second part. -/
def pairing (p : Parser) (v : Value) : Parser :=
  .map 0 p ⟨⟨"pair", "<pair>"⟩, fun w => .ok (.tuple [v, w])⟩

theorem effect_product_pairing (id : Nat) :
    (Parser.product id p q).effect cx i =
      (p.effect cx i).andThen fun v mid => (pairing q v).effect cx mid := by
  simp only [effect_product, pairing, effect_map, Effect.accept_ok]

end

/-- Two sides of each law yield the same, rejections and faults included: a choice of three nests to
either side, a parser that always rejects adds nothing in front of another one, nor does a parser
in front of itself, a common first part may be taken out of a choice, and a function may be mapped
over a choice or over its alternatives. -/
theorem choice_laws (cx : Context) (p q r : Parser) (fn : Transform) (reason : String)
    (a b : Nat) :
    Interchangeable cx (Build.result a do Build.orElse (← Build.orElse p q) r)
      (Build.result b do Build.orElse p (← Build.orElse q r)) ∧
    Interchangeable cx (Build.result a do Build.orElse (← Build.fail reason) p) p ∧
    Interchangeable cx (Build.result a (Build.orElse p p)) p ∧
    Interchangeable cx
      (Build.result a do Build.orElse (← Build.product r p) (← Build.product r q))
      (Build.result b do Build.product r (← Build.orElse p q)) ∧
    Interchangeable cx (Build.result a do Build.map (← Build.orElse p q) fn)
      (Build.result b do Build.orElse (← Build.map p fn) (← Build.map q fn)) := by
  refine ⟨.of_effect fun i => ?_, .of_effect fun i => ?_, .of_effect fun i => ?_,
    .of_effect fun i => ?_, .of_effect fun i => ?_⟩
  · calc (Parser.orElse (a + 1) (.orElse a p (.const q)) (.const r)).effect cx i
        = ((p.effect cx i).orElse (q.effect cx i)).orElse (r.effect cx i) := by
          simp only [effect_orElse_const]
      _ = (p.effect cx i).orElse ((q.effect cx i).orElse (r.effect cx i)) :=
          Effect.orElse_assoc ..
      _ = (Parser.orElse (b + 1) p (.const (.orElse b q (.const r)))).effect cx i := by
          simp only [effect_orElse_const]
  · calc (Parser.orElse (a + 1) (.fail a reason) (.const p)).effect cx i
        = Effect.orElse (pure (.reject (.stated reason) i)) (p.effect cx i) := by
          simp only [effect_orElse_const, effect_fail]
      _ = p.effect cx i := Effect.reject_orElse ..
  · calc (Parser.orElse a p (.const p)).effect cx i
        = (p.effect cx i).orElse (p.effect cx i) := effect_orElse_const ..
      _ = p.effect cx i := (p.effect_replays cx i).orElse_self
  · calc (Parser.orElse (a + 2) (.product a r p) (.const (.product (a + 1) r q))).effect cx i
        = ((r.effect cx i).andThen fun v mid => (pairing p v).effect cx mid).orElse
            ((r.effect cx i).andThen fun v mid => (pairing q v).effect cx mid) := by
          simp only [effect_orElse_const, effect_product_pairing]
      _ = (r.effect cx i).andThen fun v mid =>
            ((pairing p v).effect cx mid).orElse ((pairing q v).effect cx mid) :=
          (r.effect_replays cx i).andThen_orElse (fun v mid => (pairing p v).effect_keeps cx mid) _
      _ = (r.effect cx i).andThen fun v mid =>
            (pairing (.orElse b p (.const q)) v).effect cx mid :=
          Effect.andThen_congr fun v mid => (effect_map_orElse cx p q mid 0 b 0 0 _).symm
      _ = (Parser.product (b + 1) r (.orElse b p (.const q))).effect cx i :=
          (effect_product_pairing ..).symm
  · calc (Parser.map (a + 1) (.orElse a p (.const q)) fn).effect cx i
        = ((Parser.map b p fn).effect cx i).orElse ((Parser.map (b + 1) q fn).effect cx i) :=
          effect_map_orElse ..
      _ = (Parser.orElse (b + 2) (.map b p fn) (.const (.map (b + 1) q fn))).effect cx i :=
          (effect_orElse_const ..).symm

end ParserAlgebra
