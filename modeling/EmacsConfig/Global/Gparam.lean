/-!
# Parameters (libutil/gparam.h)

`MAXPATHLEN` is that of the system: 4096 on Linux, where sys/param.h defines it, and 1024
where it does not. `IDENTLEN` is fixed.
-/

namespace EmacsConfig.Global.Gparam

/-- What is taken from `sys/param.h`. -/
class SysParam where
  maxPathLen : Nat

export SysParam (maxPathLen)

def maxKeyLen [SysParam] : Nat := maxPathLen

def identLen : Nat := 512

@[reducible] def linux : SysParam := ⟨4096⟩

end EmacsConfig.Global.Gparam
