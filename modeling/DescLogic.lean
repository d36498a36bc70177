import DescLogic.Evaluation.Cached
import DescLogic.Factory.Description
import DescLogic.Generator.Run
import DescLogic.Proofs.Evaluation.Accounting
import DescLogic.Proofs.Evaluation.Failure
import DescLogic.Proofs.Expression.Grammar
import DescLogic.Proofs.Expression.Spacing
import DescLogic.Proofs.Factory.Description
import DescLogic.Proofs.Factory.Flaws
import DescLogic.Proofs.Factory.Identity
import DescLogic.Proofs.Factory.Preconditions
import DescLogic.Proofs.Factory.ReadBack
import DescLogic.Proofs.Factory.Sizes
import DescLogic.Proofs.Factory.Subexpressions
import DescLogic.Proofs.Generator.Completeness
import DescLogic.Proofs.Generator.Independence
import DescLogic.Proofs.Generator.Loss
import DescLogic.Proofs.Generator.Novelty
import DescLogic.Proofs.Generator.Operands
import DescLogic.Proofs.Generator.Resampling
import DescLogic.Proofs.Generator.Success
import DescLogic.Proofs.Generator.Truncation
import DescLogic.Proofs.GroundAtoms
import DescLogic.Proofs.Registry
import DescLogic.Proofs.Semantics.Closure
import DescLogic.Proofs.Semantics.InPlace
import DescLogic.Proofs.Semantics.Measures
import DescLogic.Proofs.Semantics.PairSets
import DescLogic.Proofs.Semantics.Renaming
import DescLogic.Proofs.Semantics.Staticness
