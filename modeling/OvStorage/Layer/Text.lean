import OvStorage.Address.Url

/-!
# Texts

What the methods of `str` do on a text in UTF-8.
-/

namespace OvStorage.Layer

open Address

/-! ### Texts without white space -/

end OvStorage.Layer
