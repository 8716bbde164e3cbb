import Mathlib.Logic.Relation
import ShiftReduce.Proofs.Grammar.WellFormed

/-!
# Derivations

A step replaces any nonterminal of a form by the right-hand side of one of its productions. What a
form derives, it derives between other symbols as well.
-/

namespace ShiftReduce

variable {g : Grammar}

/-- Some nonterminal of a form gives way to a right-hand side. -/
inductive DerivationStep (g : Grammar) : List Symbol → List Symbol → Prop
  | replace (before after : List Symbol) {p : ProductionId} (hp : p ∈ g.productionIds) :
      DerivationStep g (before ++ .nonterminal (g.production p).left :: after)
        (before ++ ((g.production p).right.toList ++ after))

/-- Any number of steps lead from one form to the other. -/
def Derives (g : Grammar) : List Symbol → List Symbol → Prop :=
  Relation.ReflTransGen (DerivationStep g)

theorem DerivationStep.between {form next : List Symbol} (hstep : DerivationStep g form next)
    (before after : List Symbol) :
    DerivationStep g (before ++ (form ++ after)) (before ++ (next ++ after)) := by
  obtain ⟨front, back, hp⟩ := hstep
  have hreplaced := DerivationStep.replace (before ++ front) (back ++ after) hp
  simpa only [List.append_assoc, List.cons_append] using hreplaced

namespace Derives

variable {form next last : List Symbol}

theorem refl (form : List Symbol) : Derives g form form :=
  Relation.ReflTransGen.refl

theorem trans (hfirst : Derives g form next) (hsecond : Derives g next last) :
    Derives g form last :=
  Relation.ReflTransGen.trans hfirst hsecond

/-- A left-hand side derives its right-hand side. -/
theorem production {p : ProductionId} (hp : p ∈ g.productionIds) :
    Derives g [.nonterminal (g.production p).left] (g.production p).right.toList := by
  have hstep := DerivationStep.replace [] [] hp
  rw [List.nil_append, List.nil_append, List.append_nil] at hstep
  exact .single hstep

theorem between (hderives : Derives g form next) (before after : List Symbol) :
    Derives g (before ++ (form ++ after)) (before ++ (next ++ after)) := by
  induction hderives with
  | refl => exact .refl _
  | tail _ hstep ih => exact Relation.ReflTransGen.tail ih (hstep.between before after)

theorem append_right (hderives : Derives g form next) (after : List Symbol) :
    Derives g (form ++ after) (next ++ after) :=
  hderives.between [] after

theorem append_left (hderives : Derives g form next) (before : List Symbol) :
    Derives g (before ++ form) (before ++ next) := by
  simpa only [List.append_nil] using hderives.between before []

/-- Two parts of a form are derived one after the other. -/
theorem append {form' next' : List Symbol} (hfirst : Derives g form next)
    (hsecond : Derives g form' next') : Derives g (form ++ form') (next ++ next') :=
  (hfirst.append_right form').trans (hsecond.append_left next)

end Derives

end ShiftReduce
