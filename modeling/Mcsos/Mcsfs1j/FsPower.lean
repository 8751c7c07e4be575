import Mcsos.Lib.ProgSpec
import Mcsos.Mcsfs1j.FsRuns

set_option autoImplicit false

/-! # Calls while the power lasts

`M16_E_IO` is the answer of a device that takes no more writes. With `fail_after` negative a device
takes every write, and no call changes that, so no call returns `M16_E_IO` there, whatever is on the
device.
-/

namespace Mcsos.Mcsfs1j

/-- The device takes every write. -/
def Powered (dev : Blockdev) : Prop := dev.failAfter < 0

end Mcsos.Mcsfs1j
