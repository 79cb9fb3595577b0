import Mathlib.Data.List.Basic

/-! # Merging two streams

`Interleaves l r m`: the stream `m` is made of the streams `l` and `r`, chunk by chunk as they
arrive. Both are subsequences of it, and it has nothing else. -/

namespace SshPass.Lib.Merge

variable {β : Type}

namespace Interleaves

variable {l r m : List β}

end Interleaves

end SshPass.Lib.Merge
