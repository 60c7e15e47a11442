import MvcBackend.Library.KeyedTable
import MvcBackend.Library.Transaction
import MvcBackend.Library.EventLog
import MvcBackend.Library.OrderedChoice
import MvcBackend.JsonValues
import MvcBackend.DataModel
import MvcBackend.Database
import MvcBackend.JsonOutput
import MvcBackend.Authentication
import MvcBackend.ApiParse
import MvcBackend.Endpoints
import MvcBackend.ApiRouter
import MvcBackend.HttpHandler
import MvcBackend.EndpointSteps
import MvcBackend.EndpointRefinement
import MvcBackend.RouteTables
import MvcBackend.RouterRefinement
import MvcBackend.AuthenticatorRefinement
import MvcBackend.HandlerRefinement
import MvcBackend.RequestAtomicity
import MvcBackend.CompleteMediation
import MvcBackend.FirstLogin
import MvcBackend.System
import MvcBackend.PrivilegeInvariant
import MvcBackend.BootstrapAdministrator
import MvcBackend.TaskViews
import MvcBackend.JsonIds
import MvcBackend.UnknownIds
import MvcBackend.ExactRouting
import MvcBackend.History
import MvcBackend.PostOnly
import MvcBackend.Sequencing
import MvcBackend.IntSegments
import MvcBackend.Rendering
import MvcBackend.PathSegments
import MvcBackend.BearerTokens
import MvcBackend.Restart
import MvcBackend.BadInput
import MvcBackend.RoleVisibility
import MvcBackend.Library.Serialization
import MvcBackend.ConcurrentRequests
import MvcBackend.Library.Tracing
import MvcBackend.PathBounds
import MvcBackend.Library.SextetCoding
import MvcBackend.Base64
import MvcBackend.Library.SortedMap
import MvcBackend.PicoJson
import MvcBackend.PicoJsonRoundTrip
import MvcBackend.PicoJsonNormalization
import MvcBackend.TokenVerification
import MvcBackend.Configuration
import MvcBackend.TokenDates
import MvcBackend.TokenAcceptance
import MvcBackend.TokenLifetime
import MvcBackend.Library.Machines
import MvcBackend.AnsweredRuns
import MvcBackend.AcknowledgedWrites
import MvcBackend.Purge
import MvcBackend.IdentityHistory
import MvcBackend.Library.Failures
import MvcBackend.EscapingExceptions
import MvcBackend.StoredNames
import MvcBackend.Library.Linearization
import MvcBackend.Lifetimes
import MvcBackend.ClientView
import MvcBackend.Library.Loops
import MvcBackend.JsonText
import MvcBackend.JsonTextReading
import MvcBackend.JsonTextRoundTrip
import MvcBackend.RequestTexts
import MvcBackend.AnswerTexts
import MvcBackend.SignedWrites
