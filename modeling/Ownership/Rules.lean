import Ownership.Machine
import Ownership.Rules.Expressions
import Ownership.Rules.Predicates
import Ownership.Rules.Shapes

namespace Ownership

def Rules.rule : Rules
  | _, .holds env p t => Rules.holds env p t
  | _, .tyHolds env p t => Rules.tyHolds env p t
  | _, .permHolds env p q => Rules.permHolds env p q
  | _, .refuted env p t => Rules.refuted env p t
  | _, .tyRefuted env p t => Rules.tyRefuted env p t
  | _, .permRefuted env p q => Rules.permRefuted env p q
  | _, .placeHolds env p place => Rules.placeHolds env p place
  | _, .placeRefuted env p place => Rules.placeRefuted env p place
  | _, .inferHolds env i p => Rules.inferHolds env i p
  | _, .attempt env search node p lower upper o => Rules.attempt env search node p lower upper o
  | _, .contend env search node p lower upper o => Rules.contend env search node p lower upper o
  | _, .require env p t o => Rules.require env p t o
  | _, .establish env p t o => Rules.establish env p t o
  | _, .establishTy env p t o => Rules.establishTy env p o t
  | _, .establishPerm env p q o => Rules.establishPerm env p o q
  | _, .establishUnless env p other t o => Rules.establishUnless env p other t o
  | _, .establishCopyPlace env place o => Rules.establishCopyPlace env place o
  | _, .establishMovePlace env place o => Rules.establishMovePlace env place o
  | _, .subTerms env lower upper o => Rules.subTerms env lower upper o
  | _, .subTys env lower upper o => Rules.subTys env lower upper o
  | _, .subPerms env lower upper o => Rules.subPerms env lower upper o
  | _, .subPermsOfHeads env lower upper o => Rules.subPermsOfHeads env lower upper o
  | _, .subHeads env lower upper o => Rules.subHeads env lower upper o
  | _, .equalTys env a b o => Rules.equalTys env a b o
  | _, .postEqualTys env a b o => Rules.postEqualTys env a b o
  | _, .addLowerBound env i t o => Rules.addLowerBound env i t o
  | _, .addUpperBound env i t o => Rules.addUpperBound env i t o
  | _, .checkFacts env i => Rules.checkFacts env i
  | _, .numeric env t o => Rules.numeric env t o
  | _, .future env t awaited o => Rules.future env t awaited o
  | _, .futureHead env t awaited o => Rules.futureHead env t awaited o
  | _, .body env e expected => Rules.body env e expected
  | _, .fieldTy env owner f => Rules.fieldTy env owner f
  | _, .lowerBound env i => Rules.lowerBound env i
  | _, .evidence env i p => Rules.evidence env i p
  | _, .expr env e => Rules.expr env e
  | _, .argument env a v inputTy => Rules.argument env a v inputTy
  | _, .member env owner ownerTy t name span => Rules.member env owner ownerTy t name span

def Rules.answer : Rules := fun s g => (Rules.rule s g).noted g

end Ownership
