import ParserAlgebra.Parser.Outline
import ParserAlgebra.Proofs.Optimizer.Rewrite

/-!
# Optimizing an optimized parser

Collecting finds no chain in an optimized parser: a choice that is left there is no pair of
characters, nor are the choices that its right sides turn into when they are asked for. Where no
chain leads back to itself, collecting comes to an end, and the parser is rebuilt as it is.
-/

namespace ParserAlgebra

open Run (Growing Arrives)

variable {rules : Rules} {root : Parser} {w : World rules root}

theorem Form.of_char {ok : Thunk → Prop} {p : Parser} {id : Nat} {c : Char}
    (h : Form rules w ok p (.char id c)) : p = .char id c := by
  cases h with
  | atom => rfl

theorem Thunk.Plain.not_once {t : Thunk} (h : t.Plain) : ¬ t.Once := by
  cases t with
  | const | rule => exact id
  | optimized => exact h.elim

/-- Calls that find what the cells of right sides are for, too. -/
structure Recalling (rules : Rules) (root : Parser) (calls : Nat → Thunk → Run Parser) : Prop
    extends Calling rules root calls where
  once : ∀ (w : World rules root) {cell : Nat} {t : Thunk} {p : Parser}, w.source cell = some t →
    t.Deferred rules root → t.target rules = .ok p →
      Arrives Linked (fun w q => Form rules w Thunk.Once p q) w fun k => calls k (.optimized cell t)

theorem Recalling.shift {calls : Nat → Thunk → Run Parser} (h : Recalling rules root calls) :
    Recalling rules root fun k => calls (k + 1) :=
  ⟨h.toCalling.shift, fun w _ _ _ hw ht hp => .succ (h.growing _) (h.once w hw ht hp)⟩

theorem recalling (hroot : root.Made rules) : Recalling rules root (Thunk.call rules) where
  toCalling := calling rules root
  once _ _ _ _ hw ht hp := (once_arrives hroot hw ht hp).mono le_rfl fun _ _ _ _ hq =>
    hq.mono le_rfl fun _ hu => hu ht.plain

/-! ### Chains -/

theorem form_leaves_arrives (hroot : root.Made rules) {calls : Nat → Thunk → Run Parser}
    (hcalls : Recalling rules root calls) {p : Parser}
    (hacc : Acc (fun b a => Chain.Next rules a b) p) {q : Parser} (w : World rules root)
    (hp : Ready rules root p) (hform : Form rules w Thunk.Once p q) (seen : List Nat) :
    Arrives Linked (fun _ r => ∀ chars, r.1 = some chars → ∃ id c, q = .char id c) w
      fun k => Chain.leaves (calls k) k q seen := by
  induction hacc generalizing calls q w seen with
  | intro p _ ih =>
    refine .of_succ ?_
    cases hform with
    | atom hk hc =>
      cases p with
      | char id c => exact .pure fun _ _ _ _ => ⟨id, c, rfl⟩
      | bare => cases hk
      | orElse => cases hc
      | _ => exact .pure fun _ _ _ h => nomatch h
    | choice _ ht => exact absurd ht (hroot.plain hp.reaches rfl).not_once
    | @lazy id id' cell left left' t u hleft hw hu hpair ht =>
      have hplain : u.Plain := ht
      rw [hplain.core_eq] at hu
      subst hu
      obtain ⟨right, hright⟩ := hp.defined id left u .refl
      have hdeferred := hp.optimizable.deferred hroot
      simp only [Chain.leaves]
      split
      · exact .pure fun _ _ _ h => nomatch h
      · have hfront := ih left .left hcalls.shift w (hp.child (.head _)) hleft (id' :: seen)
        refine hfront.bind (leaves_growing hcalls.toCalling.shift left' _) (fun r k => ?_)
          fun w₁ r h₁ hr => ?_
        · rcases r with ⟨_ | front, seen'⟩
          · exact .refl _
          · exact .bind (hcalls.shift.growing _ k) fun q =>
              .bind (leaves_growing hcalls.toCalling.shift q seen' k) fun _ => .refl _
        rcases r with ⟨_ | front, seen'⟩
        · exact .pure fun _ _ _ h => nomatch h
        · obtain ⟨id₁, c, rfl⟩ := hr front rfl
          have hchar := hleft.of_char
          subst hchar
          have hcell := hcalls.shift.once w₁ (h₁ _ _ hw) hdeferred hright
          refine hcell.bind (hcalls.shift.growing _)
            (fun q k => .bind (leaves_growing hcalls.toCalling.shift q seen' k) fun _ => .refl _)
            fun w₂ q _ hq => ?_
          have hback :=
            ih right (.right hright) hcalls.shift w₂ (hp.spreads (.right hright)) hq seen'
          refine hback.bind (leaves_growing hcalls.toCalling.shift q _) (fun _ => .const _)
            fun w₃ r _ hr => ?_
          rcases r with ⟨_ | back, seen''⟩
          · exact .pure fun _ _ _ h => nomatch h
          · obtain ⟨id₂, d, rfl⟩ := hr back rfl
            have hchar := hq.of_char
            subst hchar
            exact absurd ⟨id₁, c, id₂, d, rfl, hright⟩ hpair
    | _ => exact .pure fun _ _ _ h => nomatch h

/-! ### Outlines -/

theorem Parser.outlineAll_one (p : Parser) (depth : Nat) :
    Parser.outlineAll [p] depth = p.outline depth := by
  unfold Parser.outlineAll Parser.outlineAll
  cases p.outline depth with
  | error f => rfl
  | ok lines => exact congrArg Except.ok lines.append_nil

theorem Parser.outlineAll_two (p q : Parser) (depth : Nat) :
    Parser.outlineAll [p, q] depth = (do
      let first ← p.outline depth
      let second ← q.outline depth
      pure (first ++ second)) := by
  unfold Parser.outlineAll
  rw [q.outlineAll_one]

theorem Parser.outline_eq (p : Parser) (depth : Nat) :
    p.outline depth = (do
      let head ← p.lineText
      let below ← Parser.outlineAll p.children (depth + 1)
      pure (⟨depth, head⟩ :: below ++ p.lazyLines (depth + 1))) := by
  cases p <;> unfold Parser.outline <;>
    simp only [Parser.children, Parser.outlineAll_one, Parser.outlineAll_two, bind_assoc]
  all_goals rfl

theorem Parser.outlineAll_congr {ps qs : List Parser} (h : List.Forall₂ (fun q p : Parser =>
    ∀ depth, q.outline depth = p.outline depth) qs ps) (depth : Nat) :
    Parser.outlineAll qs depth = Parser.outlineAll ps depth := by
  induction h with
  | nil => rfl
  | cons h _ ih =>
    unfold Parser.outlineAll
    rw [h, ih]

theorem Parser.outline_congr {p q : Parser} (hline : q.lineText = p.lineText)
    (htag : q.tag = p.tag) (hchildren : List.Forall₂ (fun q p : Parser =>
      ∀ depth, q.outline depth = p.outline depth) q.children p.children) (depth : Nat) :
    q.outline depth = p.outline depth := by
  have hlazy : q.lazyLines (depth + 1) = p.lazyLines (depth + 1) := by
    rw [Parser.lazyLines, Parser.lazyLines, htag]
  rw [q.outline_eq, p.outline_eq, hline, Parser.outlineAll_congr hchildren, hlazy]

/-! ### Parsers -/

/-- What optimizing makes of a form `q` of `p`. -/
structure Redone (rules : Rules) {root : Parser} (w : World rules root) (p q r : Parser) :
    Prop where
  form : Form rules w ⊤ p r
  outline : ∀ depth, r.outline depth = q.outline depth

namespace Redone

variable {w' : World rules root} {p q r p' q' r' : Parser} {id id' id'' : Nat}

theorem grow (h : Redone rules w p q r) (hw : w ≤ w') : Redone rules w' p q r :=
  ⟨h.form.grow hw, h.outline⟩

theorem map {fn : Transform} (h : Redone rules w p q r) :
    Redone rules w (.map id p fn) (.map id' q fn) (.map id'' r fn) :=
  ⟨.map h.form, Parser.outline_congr rfl rfl (.cons h.outline .nil)⟩

theorem bind {label : Label} {next : Value → Except Fault Parser} (h : Redone rules w p q r) :
    Redone rules w (.bind id p label next) (.bind id' q label next) (.bind id'' r label next) :=
  ⟨.bind h.form, Parser.outline_congr rfl rfl (.cons h.outline .nil)⟩

theorem product (h : Redone rules w p q r) (h' : Redone rules w p' q' r') :
    Redone rules w (.product id p p') (.product id' q q') (.product id'' r r') :=
  ⟨.product h.form h'.form, Parser.outline_congr rfl rfl (.cons h.outline (.cons h'.outline .nil))⟩

theorem both {combine : Combiner} (h : Redone rules w p q r) (h' : Redone rules w p' q' r') :
    Redone rules w (.both id p p' combine) (.both id' q q' combine) (.both id'' r r' combine) :=
  ⟨.both h.form h'.form, Parser.outline_congr rfl rfl (.cons h.outline (.cons h'.outline .nil))⟩

theorem many {identity : Value} {combine : Combiner} (h : Redone rules w p q r) :
    Redone rules w (.many id p identity combine) (.many id' q identity combine)
      (.many id'' r identity combine) :=
  ⟨.many h.form, Parser.outline_congr rfl rfl (.cons h.outline .nil)⟩

theorem manyBetween {minimum maximum : Int} {identity : Value} {combine : Combiner}
    (h : Redone rules w p q r) : Redone rules w (.manyBetween id p minimum maximum identity combine)
      (.manyBetween id' q minimum maximum identity combine)
      (.manyBetween id'' r minimum maximum identity combine) :=
  ⟨.manyBetween h.form, Parser.outline_congr rfl rfl (.cons h.outline .nil)⟩

theorem collect {minimum : Int} {accumulator : Accumulator} (h : Redone rules w p q r) :
    Redone rules w (.collect id p minimum accumulator) (.collect id' q minimum accumulator)
      (.collect id'' r minimum accumulator) :=
  ⟨.collect h.form, Parser.outline_congr rfl rfl (.cons h.outline .nil)⟩

theorem lazy {cell : Nat} {t u v : Thunk} (h : Redone rules w p q r)
    (hw : w.source cell = some u) (hu : u.core = t) (hpair : ¬ Chain.Pair rules p t) :
    Redone rules w (.orElse id p t) (.orElse id' q v) (.orElse id'' r (.optimized cell u)) :=
  ⟨.lazy h.form hw hu hpair trivial, Parser.outline_congr rfl rfl (.cons h.outline .nil)⟩

end Redone

theorem optimizeWith_again (hroot : root.Made rules) {calls : Nat → Thunk → Run Parser}
    (hcalls : Recalling rules root calls) {p q : Parser} (hform : Form rules w Thunk.Once p q)
    (hp : Ready rules root p) (hacyclic : p.Acyclic rules) :
    ∀ w₁, w ≤ w₁ → Arrives Linked (fun w r => Redone rules w p q r) w₁
      fun k => optimizeWith (calls k) k q := by
  have hgrow := fun q => optimizeWith_growing hcalls.toCalling q
  induction hform with
  | @atom p hk hc =>
    intro w₁ _
    cases p with
    | map | bind | product | both | orElse | many | manyBetween | collect => cases hc
    | bare => cases hk
    | _ => exact .pure fun _ _ => ⟨.atom hk hc, fun _ => rfl⟩
  | choice _ ht => exact absurd ht (hroot.plain hp.reaches rfl).not_once
  | chain h => exact fun _ _ => .pure fun _ _ => ⟨.chain h, fun _ => rfl⟩
  | @lazy id id' cell left left' t u hleft hw hu hpair ht ih =>
    intro w₁ h₁
    have hplain : u.Plain := ht
    rw [hplain.core_eq] at hu
    subst hu
    obtain ⟨right, hright⟩ := hp.defined id left u .refl
    have hform : Form rules w₁ Thunk.Once (.orElse id left u)
        (.orElse id' left' (.optimized cell u)) :=
      .lazy (hleft.grow h₁) (h₁ _ _ hw) hplain.core_eq hpair ht
    simp only [optimizeWith]
    refine (form_leaves_arrives hroot hcalls hacyclic.acc w₁ hp hform []).bind
      (leaves_growing hcalls.toCalling _ _) (fun r => ?_) fun w₂ r h₂ hr => ?_
    · rcases r with ⟨_ | chars, seen⟩
      · exact .bind (.const _) fun _ => .bind (hgrow left') fun _ => .const _
      · exact .const _
    rcases r with ⟨_ | chars, seen⟩
    · have hagain : (Thunk.optimized cell u).Due rules root w₂.source :=
        .again (h₂ _ _ (h₁ _ _ hw)) (hp.optimizable.deferred hroot) hright
          (hp.spreads (.right hright)) (hacyclic.of_spreads (.right hright))
      refine (fresh_arrives w₂ hagain).bind (.const _)
        (fun _ => .bind (hgrow left') fun _ => .const _) fun w₃ cell' h₃ hcell => ?_
      refine (ih (hp.child (.head _)) (hacyclic.child (.head _)) w₃ (h₁.trans (h₂.trans h₃))).bind
        (hgrow left') (fun _ => .const _) fun w₄ r h₄ hr => ?_
      exact build_arrives Nat.le_succ fun next w₅ h₅ =>
        (hr.grow h₅).lazy (h₅ _ _ (h₄ _ _ hcell)) hplain.core_eq hpair
    · obtain ⟨_, _, hchar⟩ := hr chars rfl
      cases hchar
  | @product id id' left left' right right' _ _ ih ih' =>
    intro w₁ h₁
    simp only [optimizeWith]
    exact rebuilt_pair (hgrow left') (hgrow right')
      (ih (hp.child (.head _)) (hacyclic.child (.head _)) w₁ h₁)
      (fun w₂ h₂ => ih' (hp.child (.tail _ (.head _))) (hacyclic.child (.tail _ (.head _))) w₂
        (h₁.trans h₂))
      (fun hw hr => hr.grow hw) (fun hw hr => hr.grow hw) (fun _ _ => Nat.le_succ)
      fun _ hr hr' => hr.product hr'
  | @both id id' left left' right right' combine _ _ ih ih' =>
    intro w₁ h₁
    simp only [optimizeWith]
    exact rebuilt_pair (hgrow left') (hgrow right')
      (ih (hp.child (.head _)) (hacyclic.child (.head _)) w₁ h₁)
      (fun w₂ h₂ => ih' (hp.child (.tail _ (.head _))) (hacyclic.child (.tail _ (.head _))) w₂
        (h₁.trans h₂))
      (fun hw hr => hr.grow hw) (fun hw hr => hr.grow hw) (fun _ _ => Nat.le_succ)
      fun _ hr hr' => hr.both hr'
  | map _ ih =>
    intro w₁ h₁
    simp only [optimizeWith]
    exact rebuilt (hgrow _) (ih (hp.child (.head _)) (hacyclic.child (.head _)) w₁ h₁)
      (fun hw hr => hr.grow hw) (fun _ => Nat.le_succ) fun _ hr => hr.map
  | bind _ ih =>
    intro w₁ h₁
    simp only [optimizeWith]
    exact rebuilt (hgrow _) (ih (hp.child (.head _)) (hacyclic.child (.head _)) w₁ h₁)
      (fun hw hr => hr.grow hw) (fun _ => Nat.le_succ) fun _ hr => hr.bind
  | many _ ih =>
    intro w₁ h₁
    simp only [optimizeWith]
    exact rebuilt (hgrow _) (ih (hp.child (.head _)) (hacyclic.child (.head _)) w₁ h₁)
      (fun hw hr => hr.grow hw) (fun _ => Nat.le_succ) fun _ hr => hr.many
  | manyBetween _ ih =>
    intro w₁ h₁
    simp only [optimizeWith]
    exact rebuilt (hgrow _) (ih (hp.child (.head _)) (hacyclic.child (.head _)) w₁ h₁)
      (fun hw hr => hr.grow hw) (fun _ => Nat.le_succ) fun _ hr => hr.manyBetween
  | collect _ ih =>
    intro w₁ h₁
    simp only [optimizeWith]
    exact rebuilt (hgrow _) (ih (hp.child (.head _)) (hacyclic.child (.head _)) w₁ h₁)
      (fun hw hr => hr.grow hw) (fun _ => Nat.le_succ) fun _ hr => hr.collect

/-! ### Cells -/

/-- The right side in a cell is a form of what the cell's thunk stands for, whether it was put there
when a parser was optimized or when it was optimized again. -/
theorem optimized_arrives (hroot : root.Made rules) {cell : Nat} {t : Thunk} {p : Parser}
    (hw : w.source cell = some t) (hp : t.target rules = .ok p) :
    Arrives Linked (fun w q => Form rules w t.Gives p q) w
      fun k => (Thunk.optimized cell t).call rules k := by
  have hdue := w.due hw
  cases hdue with
  | first ht => exact once_arrives hroot hw ht hp
  | @again cell' t p' hs ht hp' hready hacyclic =>
    have htarget : t.target rules = .ok p := hp
    have hsame : p' = p := by
      rw [htarget] at hp'
      cases hp'
      rfl
    subst hsame
    have hcalls := recalling hroot
    refine cell_arrives hw hp ?_
    refine (hcalls.once w hs ht htarget).bind (hcalls.growing _)
      (fun q => optimizeWith_growing hcalls.toCalling q) fun w₁ q h₁ hq => ?_
    exact (optimizeWith_again hroot hcalls hq hready hacyclic w₁ le_rfl).mono le_rfl
      fun w₂ _ r _ hr => hr.form.mono le_rfl fun _ _ hplain => hplain.elim

end ParserAlgebra
