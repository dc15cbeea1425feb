import Merkleberg.Forest.Measure
import Merkleberg.Mmr.Measure
import Merkleberg.Mmr.Session
import Merkleberg.Mmriver.Session

open machine machine.Outcome
open forest
open merkleberg.helper

namespace merkleberg

variable {Item Store σ μ G : Type} [Monoid G] {measure : Item → G} {b : Profile} {M : Merge Item μ}
  {R : MMRStoreReadOps Store Item σ} {W : MMRStoreWriteOps Store Item σ} {S : MapStore R W}
  {under : Nat → Option Item} {H : Hasher Item} {data : List Bytes}

namespace mmr

end mmr

namespace mmriver

end mmriver

end merkleberg
