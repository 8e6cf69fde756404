import Concolic.Defect
import Concolic.Entries

namespace Concolic.Term

/-- Visits every node. The operands of a node that `skip` holds of are left out, and a hole cannot be
visited, except as the right operand of a floating-point operation, where it is no operand. -/
def walk {σ : Type} (skip : Term → Bool) (visit : σ → Term → σ) (s : σ) :
    Term → Except Defect σ
  | hole => .error .unreachable
  | t@(const _) | t@(fconst _) | t@(var _ _) => return visit s t
  | t@(extract src _ _) | t@(not src) | t@(cast src _ _) | t@(convert _ src _) =>
    if skip t then return visit s t else walk skip visit (visit s t) src
  | t@(binary _ l r) =>
    if skip t then return visit s t else do
      walk skip visit (← walk skip visit (visit s t) l) r
  | t@(float _ l r) =>
    if skip t then return visit s t else do
      let s ← walk skip visit (visit s t) l
      if r.isHole then return s else walk skip visit s r
  | t@(ite c y n) =>
    if skip t then return visit s t else do
      walk skip visit (← walk skip visit (← walk skip visit (visit s t) c) y) n

def insertVar (name : String) (kind : Kind) (vars : List (String × Kind)) : List (String × Kind) :=
  Entries.alter name (·.getD kind) vars

def visitVar (vars : List (String × Kind)) : Term → List (String × Kind)
  | var name kind => insertVar name kind vars
  | _ => vars

def vars (ts : List Term) : Except Defect (List (String × Kind)) :=
  ts.foldlM (fun s t => t.walk (fun _ => false) visitVar s) []

end Concolic.Term
