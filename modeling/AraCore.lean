import AraCore.Future.FirstWins
import AraCore.Future.Abandon
import AraCore.Future.Deadlock
import AraCore.Future.Successor
import AraCore.Optional.Order
import AraCore.StringView.Bounds
import AraCore.Optional.Throw
import AraCore.Variant.Converting
import AraCore.Variant.Dispatch
import AraCore.Variant.Throw
import AraCore.Future.Race
import AraCore.Future.MoveRace
import AraCore.Optional.Sources
import AraCore.Result.Bind
import AraCore.Variant.Lifetimes
import AraCore.Future.Chain
import AraCore.Future.Nested
import AraCore.Future.Contest
import AraCore.BuildCentral.Groups
import AraCore.BuildCentral.Command
