import DocumentQuery.Filter.Constructors
import DocumentQuery.Main
import DocumentQuery.Query.Encoding
import DocumentQuery.Proofs.Steps
import DocumentQuery.Proofs.FilterFormula
import DocumentQuery.Proofs.Mongo.Meaning
import DocumentQuery.Proofs.RecordedFilter
import DocumentQuery.Proofs.FilterTests
import DocumentQuery.Proofs.Built
import DocumentQuery.Proofs.Mongo.Stages
import DocumentQuery.Proofs.Mongo.Parameters
import DocumentQuery.Proofs.BoundParameters
import DocumentQuery.Proofs.Texts
import DocumentQuery.Proofs.Writing
import DocumentQuery.Proofs.Mongo.Writing
import DocumentQuery.Proofs.Tidy
import DocumentQuery.Proofs.Mongo.WrittenStages
import DocumentQuery.Proofs.Dynamo.Writing
import DocumentQuery.Proofs.Couch.Writing
import DocumentQuery.Proofs.Firestore.Writing
import DocumentQuery.Proofs.WrittenQuery
import DocumentQuery.Proofs.Renaming
import DocumentQuery.Proofs.Mongo.Renaming
import DocumentQuery.Proofs.Mongo.RenamedStages
import DocumentQuery.Proofs.Dynamo.Renaming
import DocumentQuery.Proofs.Couch.Renaming
import DocumentQuery.Proofs.Firestore.Renaming
import DocumentQuery.Proofs.RenamedQuery
import DocumentQuery.Proofs.Firestore.Flattening
import DocumentQuery.Proofs.FirstFailure
import DocumentQuery.Proofs.Schema.Index
import DocumentQuery.Proofs.Schema.Catalog
import DocumentQuery.Proofs.Schema.References
import DocumentQuery.Proofs.Dynamo.Mentions
import DocumentQuery.Proofs.FieldUpdates
import DocumentQuery.Proofs.Dynamo.Updates
import DocumentQuery.Proofs.SameWrite
import DocumentQuery.Proofs.ChangedFields
import DocumentQuery.Proofs.LastWrites
import DocumentQuery.Proofs.FilterPlaces
import DocumentQuery.Proofs.EmptyArrays
import DocumentQuery.Proofs.Mongo.EmptyArrays
import DocumentQuery.Proofs.EmptyGroups
import DocumentQuery.Proofs.FittingParts
import DocumentQuery.Proofs.Probes
import DocumentQuery.Proofs.ConditionTrees
import DocumentQuery.Proofs.Intents
import DocumentQuery.Proofs.ReachableQueries
import DocumentQuery.Proofs.Mongo.JoinedPipelines
import DocumentQuery.Proofs.Mongo.FirstFault
import DocumentQuery.Proofs.Failures
import DocumentQuery.Proofs.Command.WrittenTexts
import DocumentQuery.Proofs.Conjunctions
import DocumentQuery.Proofs.Command.WrittenFinds
import DocumentQuery.Proofs.Mongo.StagePlaces
import DocumentQuery.Proofs.Mongo.GroupOutputs
import DocumentQuery.Proofs.SortOrders
import DocumentQuery.Proofs.Mongo.MergedConditions
import DocumentQuery.Proofs.Firestore.Updates
import DocumentQuery.Proofs.RepeatedFilters
import DocumentQuery.Proofs.Schema.Suggestions
import DocumentQuery.Proofs.SelectedFields
import DocumentQuery.Proofs.EncodedQueries
import DocumentQuery.Proofs.StageNames
import DocumentQuery.Proofs.Schema.KeyedTables
import DocumentQuery.Proofs.Schema.RoundTrip
import DocumentQuery.Proofs.FirstEmptyGroup
